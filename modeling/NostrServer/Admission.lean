import NostrServer.Pow
import NostrServer.ReferenceServer
import NostrServer.Steps

namespace NostrServer
open Docdb

variable {rl : Relay}

def Event.ephemeral (ev : Event) : Prop :=
  Kind.ephemeralBegin ≤ ev.kind ∧ ev.kind < Kind.ephemeralEnd

instance (ev : Event) : Decidable ev.ephemeral := inferInstanceAs (Decidable (_ ∧ _))

/-- What has to hold of an event, its sender and the server for it to be stored. -/
structure Admitted (a : App rl) (sender : Peer) (ev : Event) : Prop where
  id : ev.calcId rl.ext = ev.id
  signed : ev.verify rl.ext = true
  kind : ¬ ev.ephemeral
  writable : rl.options.readOnly = false
  pow : 0 < rl.options.pow → rl.options.pow ≤ leadingZeroBits ev.id.bytes
  invited : rl.options.whitelisting = true →
    (sender.authent = true ∧ a.isHomeUser sender.authPubkey = true) ∨
    (a.checkWhitelist ev.author).1 = true ∨
    ((ev.kind = Kind.encryptedDirectMessages ∨ ev.kind = Kind.giftWrapEvent) ∧
      ∃ target, Names (ev.getTagContent (str "p")) target ∧ a.isHomeUser target = true)

/-- The texts the checks read are those the ids and keys come from: the id shows its
work where work is asked, and the target decides only if its tag names it. -/
structure Legible (rl : Relay) (a : App rl) (sender : Peer) (m : Structured)
    (ev : Event) : Prop where
  pow : 0 < rl.options.pow → ∀ text, m.field (str "id") = .string text →
    checkPow rl.options.pow text = true →
    ShowsWork rl.options.pow text
  target : rl.options.whitelisting = true →
    ¬ (sender.authent = true ∧ a.isHomeUser sender.authPubkey = true) →
    (a.checkWhitelist ev.author).1 = false →
    (ev.kind = Kind.encryptedDirectMessages ∨ ev.kind = Kind.giftWrapEvent) →
    Written 32 (ev.getTagContent (str "p"))

namespace Session

/-- A legible event that `on_event_generic` lets in is admitted. -/
theorem LetIn.admitted {s : Session rl} {id : Str} (l : LetIn s c ev) (p : Passed s c m ns id ev)
    (hn : s.peer.noLimit = false)
    (hlegible : ∀ ev', Event.fromStructured rl.ext c.mem.event m = .ok ev' →
      Legible rl s.app s.peer m ev') :
    Admitted s.app s.peer ev := by
  obtain ⟨ev', hparsed, hev⟩ := p.parsed
  obtain ⟨hcalc, -, -, htrusted, -, text, htext, hid⟩ := Event.fromStructured_ok hparsed
  have legible := hlegible ev' hparsed
  have hsame : ev = { ev' with trusted := ev.trusted } := by
    rcases s.trust_cases ev' with he | ⟨_, _, he⟩ <;> rw [hev, he]
  have hauthor : ev.author = ev'.author := by rw [hsame]
  have hkind : ev.kind = ev'.kind := by rw [hsame]
  have htags : ev.getTagContent (str "p") = ev'.getTagContent (str "p") := by rw [hsame]; rfl
  have hids : ev.id = ev'.id := by rw [hsame]
  have hidtext : id = text := by
    have := p.text
    rw [htext, rl.ext.asString_string] at this
    exact (Option.some.inj this).symm
  refine ⟨?_, p.signed, l.kind, l.writable hn, fun hpow => ?_, fun hw => ?_⟩
  · rw [hsame]
    exact hcalc
  · have hchk := p.pow hn hpow
    rw [hidtext] at hchk
    rw [hids, hid]
    exact checkPow_leading hchk (legible.pow hpow text htext hchk) _
  · by_cases hhome : s.peer.authent = true ∧ s.app.isHomeUser s.peer.authPubkey = true
    · exact Or.inl hhome
    right
    rcases l.invited hn hw with ht | hlist | ⟨hk, htarget⟩
    · rcases s.trust_cases ev' with he | ⟨ha, hu, _⟩
      · rw [hev, he, htrusted] at ht
        cases ht
      · exact absurd ⟨ha, hu⟩ hhome
    · exact Or.inl hlist
    · cases hlist : (s.app.checkWhitelist ev.author).1 with
      | true => exact Or.inl rfl
      | false =>
        have hwritten := legible.target hw hhome (hauthor ▸ hlist) (hkind ▸ hk)
        exact Or.inr ⟨hk, _, ⟨htags ▸ hwritten,
          fun u => fromHex_written (htags ▸ hwritten) u _⟩, htarget⟩

end Session

namespace Server

def LegibleStep (sv : Server rl) : Input → Prop
  | .frame conn f c => ∀ p m ev, sv.peers conn = some p → Carries rl f (str "EVENT") m ∨
    Carries rl f (str "FILE") m →
      Event.fromStructured rl.ext c.mem.event m = .ok ev → Legible rl sv.app p m ev
  | _ => True

/-- After `pre` the connection's message carried the event and had it admitted. The
server marks events whose senders it trusts and those that get binary data. -/
def Brought (rl : Relay) (pre : List Input) (conn : Nat) (f : Frame) (c : Circumstance) (cmd : Str)
    (ev : Event) : Prop :=
  ∃ p m ev', (run rl pre).peers conn = some p ∧ Carries rl f cmd m ∧
    Event.fromStructured rl.ext c.mem.event m = .ok ev' ∧
    ev = { ev' with trusted := ev.trusted, nip97 := ev.nip97 } ∧
    Admitted (run rl pre).app p ev

/-- The event came with an earlier FILE message of this connection. -/
def Announced (rl : Relay) (pre : List Input) (conn : Nat) (ev : Event) : Prop :=
  ∃ pre' f c mid, pre = pre' ++ .frame conn f c :: mid ∧ Brought rl pre' conn f c (str "FILE") ev

def CameWith (rl : Relay) (pre : List Input) (x : Input) (ev : Event) : Prop :=
  (∃ conn f c, x = .frame conn f c ∧ Brought rl pre conn f c (str "EVENT") ev) ∨
  ∃ conn data c, x = .frame conn (.binary data) c ∧ Announced rl pre conn ev

theorem Announced.later (h : Announced rl pre conn ev) (x : Input) :
    Announced rl (pre ++ [x]) conn ev := by
  obtain ⟨pre', f, c, mid, rfl, hb⟩ := h
  exact ⟨pre', f, c, mid ++ [x], by simp, hb⟩

theorem Brought.marked (h : Brought rl pre conn f c cmd ev) (b : Bool) :
    Brought rl pre conn f c cmd { ev with nip97 := b } := by
  obtain ⟨p, m, ev', hp, hc, hparsed, he, had⟩ := h
  exact ⟨p, m, ev', hp, hc, hparsed, by rw [he],
    ⟨had.id, had.signed, had.kind, had.writable, had.pow, had.invited⟩⟩

theorem Announced.marked (h : Announced rl pre conn ev) (b : Bool) :
    Announced rl pre conn { ev with nip97 := b } := by
  obtain ⟨pre', f, c, mid, he, hb⟩ := h
  exact ⟨pre', f, c, mid, he, hb.marked b⟩

theorem brought_of_letIn {pre : List Input} {conn : Nat} {p : Peer} {id cmd : Str}
    (peer : (run rl pre).peers conn = some p) (hx : LegibleStep (run rl pre) (.frame conn f c))
    (hcmd : cmd = str "EVENT" ∨ cmd = str "FILE") (hc : Carries rl f cmd m)
    (passed : Session.Passed ((run rl pre).session p) c m ns id ev)
    (l : Session.LetIn ((run rl pre).session p) c ev) : Brought rl pre conn f c cmd ev := by
  obtain ⟨ev', hparsed, he⟩ := passed.parsed
  have hcarries : Carries rl f (str "EVENT") m ∨ Carries rl f (str "FILE") m := by
    rcases hcmd with rfl | rfl
    · exact Or.inl hc
    · exact Or.inr hc
  have hnip := (Event.fromStructured_ok hparsed).2.2.1
  refine ⟨p, m, ev', peer, hc, hparsed, ?_,
    l.admitted passed ((run_regular pre).unprivileged conn p peer)
    (fun e h => hx p m e peer hcarries h)⟩
  rcases ((run rl pre).session p).trust_cases ev' with ht | ⟨_, _, ht⟩ <;> rw [he, ht]

/-- What is waited for was announced on the same connection. -/
theorem run_announced (h : (machine rl).Throughout LegibleStep inputs) :
    ∀ conn p, (run rl inputs).peers conn = some p → ∀ ev, p.fileEvent = some ev →
      Announced rl inputs conn ev := by
  refine Machine.run_induction (P := fun inputs => ∀ conn p, (run rl inputs).peers conn = some p →
    ∀ ev, p.fileEvent = some ev → Announced rl inputs conn ev) (fun conn p hp => (nomatch hp)) ?_ h
  intro pre x ih hx conn q hq ev he
  have hm := (run rl pre).step_moved (run_regular pre).valid x
  rw [run_step] at hq
  generalize (run rl pre).step x = sv' at hm hq
  cases hm with
  | still _ app peers =>
    rcases peers conn q hq with hq | ⟨hn, _⟩
    · exact (ih conn q hq ev he).later x
    · rw [hn] at he
      cases he
  | gc mem => exact (ih conn q hq ev he).later _
  | message conn' f c p s' peer effect app peers =>
    rcases peers conn q hq with ⟨rfl, rfl⟩ | hq
    · rcases effect.pending he with he | ⟨ev', he', rfl⟩ | ⟨m, id, hc, passed, l, -⟩
      · exact (ih _ p peer ev he).later _
      · exact ((ih _ p peer ev' he').marked true).later _
      · exact ⟨pre, f, c, [], rfl, brought_of_letIn peer hx (Or.inr rfl) hc passed l⟩
    · exact (ih conn q hq ev he).later _

/-- What enters in a step came with its message, and what is published in it and not
ephemeral has just entered. -/
def Admits (rl : Relay) (pre : List Input) (x : Input) (sv' : Server rl) : Prop :=
  (∀ i ev, (i, .event ev) ∈ sv'.app.records → (i, .event ev) ∉ (run rl pre).app.records →
    CameWith rl pre x ev) ∧
  ∃ new, sv'.app.published = (run rl pre).app.published ++ new ∧
    ∀ e ∈ new, ¬ e.1.ephemeral → Entered (run rl pre) sv' e.1

/-- One event came in by one put. -/
theorem admits_put {sv' : Server rl} {s' : Session rl} {ev : Event} {old new : DocID}
    {src : Option Nat} (happ : sv'.app = s'.app)
    (w : App.Wrote (run rl pre).app s'.app (.event ev) old new)
    (hpub : s'.app.published = (run rl pre).app.published ++ [(ev, src)])
    (hc : CameWith rl pre x ev) : Admits rl pre x sv' := by
  unfold Admits
  rw [happ]
  refine ⟨?_, _, hpub, ?_⟩
  · intro i e hi hno
    rcases (w.mem _).mp hi with heq | ⟨hi, _⟩
    · cases heq
      exact hc
    · exact absurd hi hno
  · intro e he _
    rw [List.mem_singleton.mp he]
    exact ⟨new, happ ▸ (w.mem _).mpr (Or.inl rfl), w.fresh⟩

theorem admits_nothing {sv' : Server rl} (hr : sv'.app.records = (run rl pre).app.records)
    (hpub : sv'.app.published = (run rl pre).app.published) : Admits rl pre x sv' :=
  ⟨fun i ev hi hno => absurd (hr ▸ hi) hno, [], by simpa using hpub, by simp⟩

theorem step_admits (h : (machine rl).Throughout LegibleStep (pre ++ [x])) :
    Admits rl pre x (run rl (pre ++ [x])) := by
  have hregular : (run rl pre).Regular := run_regular pre
  have hannounced := run_announced h.leading
  have hx := h.last
  have hm := (run rl pre).step_moved hregular.valid x
  rw [run_step]
  generalize (run rl pre).step x = sv' at hm ⊢
  cases hm with
  | still _ app peers => exact admits_nothing (by rw [app]) (by rw [app])
  | gc mem =>
    have hc := (run rl pre).app.runAttachmentGc_collected hregular.valid hregular.filed mem
    exact ⟨fun i ev hi hno => absurd ((hc.events i ev).mp hi) hno, [],
      by simpa using hc.published, by simp⟩
  | message conn f c p s' peer effect app peers =>
    have hmarked {ev : Event} (he : p.fileEvent = some ev) :
        Announced rl pre conn { ev with nip97 := true } :=
      (hannounced conn p peer ev he).marked true
    have letIn {m : Structured} {id : Str} {ev : Event} {ns : Bool}
        (hc : Carries rl f (str "EVENT") m)
        (passed : Session.Passed ((run rl pre).session p) c m ns id ev)
        (l : Session.LetIn ((run rl pre).session p) c ev) : CameWith rl pre (.frame conn f c) ev :=
      Or.inl ⟨conn, f, c, rfl, brought_of_letIn peer hx (Or.inl rfl) hc passed l⟩
    cases effect with
    | quiet q =>
      exact admits_nothing (by rw [app, q.app.records]; rfl) (by rw [app, q.app.published]; rfl)
    | broadcast m id ev hc passed hk hs ha hpub =>
      have hr : sv'.app.records = (run rl pre).app.records := by
        simp [app, App.records, hs, session]
      refine ⟨fun i ev hi hno => absurd (hr ▸ hi) hno, _, by rw [app, hpub]; rfl,
        fun e he hne => ?_⟩
      rw [List.mem_singleton.mp he] at hne
      exact absurd hk hne
    | published m id ev old new hc passed l hk hd w hpub =>
      exact admits_put app w hpub (letIn hc passed l)
    | deleted m id ev e i new hc passed l hk ht hid hauth w hpub =>
      exact admits_put app w hpub (letIn hc passed l)
    | awaits m id ev hc passed l hchk ha =>
      exact admits_nothing (by rw [app, ha.records]; rfl) (by rw [app, ha.published]; rfl)
    | seen ev hpend ha =>
      exact admits_nothing (by rw [app, ha.records]; rfl) (by rw [app, ha.published]; rfl)
    | dropped ha =>
      exact admits_nothing (by rw [app, ha.records]; rfl) (by rw [app, ha.published]; rfl)
    | reused data ev old new hfr hpend hh hatt hd w hpub =>
      subst hfr
      exact admits_put app w hpub (Or.inr ⟨conn, data, c, rfl, hmarked hpend⟩)
    | uploaded data ev old new new' a hfr hpend hh hatt hd w w' hpub =>
      subst hfr
      have hcame : CameWith rl pre (.frame conn (.binary data) c) { ev with nip97 := true } :=
        Or.inr ⟨conn, data, c, rfl, hmarked hpend⟩
      have hin : (new, EventOrAttachment.event { ev with nip97 := true }) ∈ a.records :=
        (w.mem _).mpr (Or.inl rfl)
      refine ⟨fun i e hi hno => ?_, _, by rw [app, hpub]; rfl, fun e he _ => ?_⟩
      · rw [app] at hi
        rcases (w'.mem _).mp hi with heq | ⟨hi, _⟩
        · cases heq
        · rcases (w.mem _).mp hi with heq | ⟨hi, _⟩
          · cases heq
            exact hcame
          · exact absurd hi hno
      · rw [List.mem_singleton.mp he]
        exact ⟨new, app ▸ (w'.mem _).mpr (Or.inr ⟨hin, App.number_pos hin⟩), w.fresh⟩

/-- In a run of legible messages every event that enters the storage was admitted when
its message was handled, and what is published and not ephemeral has just entered. -/
theorem stored_events_admitted (inputs : List Input)
    (h : (machine rl).Throughout LegibleStep inputs) :
    ∀ pre x post, inputs = pre ++ x :: post →
      (∀ i ev, (i, .event ev) ∈ (run rl (pre ++ [x])).app.records →
        (i, .event ev) ∉ (run rl pre).app.records →
        CameWith rl pre x ev) ∧
      ∃ new, (run rl (pre ++ [x])).app.published = (run rl pre).app.published ++ new ∧
        ∀ e ∈ new, ¬ e.1.ephemeral → Entered (run rl pre) (run rl (pre ++ [x])) e.1 := by
  intro pre x post he
  have hsplit : inputs = (pre ++ [x]) ++ post := by simp [he]
  exact step_admits (hsplit ▸ h).leading

def minedNote : Event := Event.parsed
  { kind := 1, createdAt := 1700000510
    id := .ofNat 0x0071f93aacf065d3a51dcce76684acd13266d2767b9275e1eeaccfe16276c61d
    author := note.author
    sig := .ofNat 0x04fc6977144b4fb37743b215b87e6812527302200b16e3cedeffc77cd16078041c9c0427f90948cb08431fcd0e50a8b9936378829387d0e55f41c379aa17fcdf }

def minedText : Str :=
  str "[0,\"f9308a019258c31049344f85f89d5229b531c845836f99b08601f113bce036f9\",1700000510,1,[],\"\"]"

def minedMessage : Structured := minedNote.command "EVENT" minedNote.id.toHex

def idlessMessage : Structured := note.command "EVENT" []

def workRelay (message : Structured) : Relay :=
  sampleRelay { pow := 8 } [(noteText, note), (minedText, minedNote)] [message]

/-- The id left out was still in the array when `from_hex` wrote nothing to it. -/
def leftOver : Memory := { Memory.zeros with event := { Memory.zeros.event with id := note.id } }

theorem idless_note_enters :
    (run (workRelay idlessMessage) [arrival, idlessMessage.sent leftOver]).app.records =
    [(1, .event note)] := by decide +kernel

/-- An empty id text passes `check_pow`, and the event is stored without any work. -/
theorem idless_note_not_admitted : ¬ ∀ i ev,
    (i, .event ev) ∈ (run (workRelay idlessMessage)
      ([arrival] ++ [idlessMessage.sent leftOver])).app.records →
    (i, .event ev) ∉ (run (workRelay idlessMessage) [arrival]).app.records →
    CameWith (workRelay idlessMessage) [arrival] (idlessMessage.sent leftOver) ev := by
  intro h
  have hin : (1, .event note) ∈ (run (workRelay idlessMessage)
      ([arrival] ++ [idlessMessage.sent leftOver])).app.records := by
    rw [List.singleton_append, idless_note_enters]
    exact List.mem_singleton_self _
  have hno : (1, .event note) ∉ (run (workRelay idlessMessage) [arrival]).app.records := by
    decide +kernel
  rcases h 1 note hin hno with ⟨conn, f, c, _, p, m, ev', _, _, _, _, had⟩ | ⟨conn, data, c, hx, _⟩
  · have hwork : (8 : Int) ≤ leadingZeroBits note.id.bytes := had.pow (by decide)
    exact absurd hwork (by decide +kernel)
  · cases hx

theorem minedMessage_legible : (machine (workRelay minedMessage)).Throughout LegibleStep
    ([arrival] ++ [minedMessage.sent Memory.zeros]) := by
  refine Machine.Throughout.snoc (Machine.throughout_nil.snoc trivial) ?_
  intro p m ev _ hc _
  obtain ⟨msg, hm, -, rfl⟩ := hc.elim Carries.listed Carries.listed
  obtain rfl := List.mem_singleton.mp hm
  refine ⟨fun _ text ht _ => ?_, fun hw => absurd hw (by decide)⟩
  cases (message_id minedNote minedNote.id.toHex).symm.trans ht
  exact Or.inl (by decide +kernel)

/-- With its work shown, a note is stored as one that was admitted. -/
theorem mined_note_admitted :
    (1, .event minedNote) ∈ (run (workRelay minedMessage)
      ([arrival] ++ [minedMessage.sent Memory.zeros])).app.records ∧
    CameWith (workRelay minedMessage) [arrival] (minedMessage.sent Memory.zeros) minedNote := by
  have hin : (1, .event minedNote) ∈
      (run (workRelay minedMessage)
        ([arrival] ++ [minedMessage.sent Memory.zeros])).app.records := by decide +kernel
  have hno : (1, .event minedNote) ∉ (run (workRelay minedMessage) [arrival]).app.records := by
    decide +kernel
  exact ⟨hin, (stored_events_admitted _ minedMessage_legible [arrival] _ [] rfl).1 1
    minedNote hin hno⟩

end Server

end NostrServer
