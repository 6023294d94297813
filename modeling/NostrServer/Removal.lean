import NostrServer.ReferenceServer
import NostrServer.Steps

namespace NostrServer
open Docdb

variable {rl : Relay}

/-- The text of a frame is one message. -/
theorem Carries.same (h : Carries rl f cmd m) (h' : Carries rl f cmd' m') : m = m' := by
  obtain ⟨payload, msg, rfl, hmsg, _, rfl⟩ := h
  obtain ⟨payload', msg', hf, hmsg', _, rfl⟩ := h'
  cases hf
  rw [hmsg] at hmsg'
  cases hmsg'
  rfl

theorem Carries.not_binary (h : Carries rl f cmd m) (data : Str) : f ≠ .binary data := by
  obtain ⟨payload, msg, rfl, _⟩ := h
  exact fun he => nomatch he

/-- The event takes the place of the other as a replaceable one. -/
structure Event.Supersedes (ev e : Event) : Prop where
  replaceable : replaceable ev = true
  author : ev.author = e.author
  kind : ev.kind = e.kind
  tag : parameterizedReplaceable ev = true → ev.getTagContent (str "d") = e.getTagContent (str "d")
  newer : e.createdAt ≤ ev.createdAt

theorem Event.supersedes_of_key {ev e : Event} (hr : NostrServer.replaceable ev = true)
    (hk : e.replaceKey = ev.replaceKey) (ht : e.createdAt ≤ ev.createdAt) : ev.Supersedes e := by
  simp only [Event.replaceKey, AuthorKindTagKey.mk.injEq] at hk
  obtain ⟨ha, hkind, htag⟩ := hk
  refine ⟨hr, ha.symm, hkind.symm, fun hp => ?_, ht⟩
  have hp' : parameterizedReplaceable e = true := by
    simpa [parameterizedReplaceable, hkind] using hp
  simpa [hp, hp'] using htag.symm

/-- A deletion request by the event's author names it. -/
def Event.Deletes (ev e : Event) : Prop :=
  ev.kind = Kind.eventDeletion ∧ ev.author = e.author ∧ Spells (ev.getTagContent (str "e")) e.id

instance (ev e : Event) : Decidable (ev.Deletes e) := inferInstanceAs (Decidable (_ ∧ _))

namespace Server

def Holds (sv : Server rl) (e : Event) : Prop := ∃ i, (i, .event e) ∈ sv.app.records

/-- A deletion request that comes down on an event of its author spells an id. -/
def SpellsTarget (sv : Server rl) : Input → Prop
  | .frame _ f c => ∀ m ev, Carries rl f (str "EVENT") m →
    Event.fromStructured rl.ext c.mem.event m = .ok ev →
      ev.kind = Kind.eventDeletion →
      (∃ e, sv.Holds e ∧ e.id = Session.deletionTarget c.mem ev ∧ e.author = ev.author) →
      HexText 32 (ev.getTagContent (str "e"))
  | _ => True

/-- A put takes out the document it replaces and no other. -/
theorem wrote_removes {sv sv' : Server rl} {d : EventOrAttachment} {old new : DocID}
    (w : App.Wrote sv.app sv'.app d old new) (he : sv.Holds e) (hno : ¬ sv'.Holds e) :
    (old, .event e) ∈ sv.app.records := by
  obtain ⟨i, hi⟩ := he
  by_cases ho : i = old
  · exact ho ▸ hi
  · exact absurd ⟨i, (w.mem _).mpr (Or.inr ⟨hi, ho⟩)⟩ hno

/-- One step of `only_author_removes`. -/
theorem step_removes (sv : Server rl) (h : sv.Regular) (x : Input) (hx : sv.SpellsTarget x)
    (he : sv.Holds e) (hno : ¬ (sv.step x).Holds e) :
    ∃ ev, Entered sv (sv.step x) ev ∧ ev.verify rl.ext = true ∧
      (ev.Deletes e ∨ ev.Supersedes e) := by
  have hm := sv.step_moved h.valid x
  generalize sv.step x = sv' at hm hno ⊢
  have same (hr : sv'.app.records = sv.app.records) : False := by
    obtain ⟨i, hi⟩ := he
    exact hno ⟨i, hr ▸ hi⟩
  cases hm with
  | still _ app peers => exact (same (by rw [app])).elim
  | gc mem =>
    obtain ⟨i, hi⟩ := he
    exact absurd ⟨i, ((sv.app.runAttachmentGc_collected h.valid h.filed mem).events i e).mpr hi⟩ hno
  | message conn f c p s' peer effect app peers =>
    have wrote {d : EventOrAttachment} {old new : DocID} (w : App.Wrote sv.app s'.app d old new) :
        App.Wrote sv.app sv'.app d old new := app ▸ w
    cases effect with
    | quiet q => exact (same (by rw [app, q.app.records]; rfl)).elim
    | broadcast m id ev hc passed hk hs ha hpub =>
      exact (same (by simp [app, App.records, hs, session])).elim
    | awaits m id ev hc passed l hchk ha => exact (same (by rw [app, ha.records]; rfl)).elim
    | seen ev hpend ha => exact (same (by rw [app, ha.records]; rfl)).elim
    | dropped ha => exact (same (by rw [app, ha.records]; rfl)).elim
    | published m id ev old new hc passed l hk hd w =>
      have hold := wrote_removes (wrote w) he hno
      refine ⟨ev, ⟨new, ((wrote w).mem _).mpr (Or.inl rfl), w.fresh⟩, passed.signed, Or.inr ?_⟩
      rcases (sv.session p).app.docToReplace_spec ev with
        ⟨hd', _⟩ | ⟨hd', _⟩ | ⟨i, e', hd', he', _, hr, hkey, ht⟩
      · cases hd'.symm.trans hd
      · cases hd'.symm.trans hd
        exact absurd rfl (App.number_pos hold)
      · cases hd'.symm.trans hd
        cases same_record sv.app.ids_nodup he' hold rfl
        exact Event.supersedes_of_key hr hkey ht
    | deleted m id ev e' i new hc passed l hk ht hid hauth w =>
      have hold := wrote_removes (wrote w) he hno
      refine ⟨ev, ⟨new, ((wrote w).mem _).mpr (Or.inl rfl), w.fresh⟩, passed.signed, Or.inl ?_⟩
      cases same_record sv.app.ids_nodup ht hold rfl
      obtain ⟨ev', hparsed, hev⟩ := passed.parsed
      have hhex : HexText 32 (ev.getTagContent (str "e")) := by
        rcases (sv.session p).trust_cases ev' with htr | ⟨_, _, htr⟩ <;>
          rw [hev, htr] at hid hauth hk ⊢ <;>
          exact hx m ev' hc hparsed hk ⟨e, ⟨i, ht⟩, hid, hauth⟩
      exact ⟨hk, hauth.symm, (fromHex_eq_iff hhex _ _).mp hid.symm⟩
    | reused data ev old new hfr hpend hh hatt hd w =>
      have hold := wrote_removes (wrote w) he hno
      have hz : (sv.session p).app.docToReplace { ev with nip97 := true } = some 0 :=
        App.docToReplace_fileHeader _ (h.pending conn p peer ev hpend).2
      cases hz.symm.trans hd
      exact absurd rfl (App.number_pos hold)
    | uploaded data ev old new new' a hfr hpend hh hatt hd w w' =>
      have hz : (sv.session p).app.docToReplace { ev with nip97 := true } = some 0 :=
        App.docToReplace_fileHeader _ (h.pending conn p peer ev hpend).2
      cases hz.symm.trans hd
      obtain ⟨i, hi⟩ := he
      have hi' : (i, EventOrAttachment.event e) ∈ a.records :=
        (w.mem _).mpr (Or.inr ⟨hi, App.number_pos hi⟩)
      exact absurd ⟨i, app ▸ (w'.mem _).mpr (Or.inr ⟨hi', App.number_pos hi'⟩)⟩ hno

/-- A request to delete what someone else stored throws, and nothing happens to the
storage or to what is published. -/
theorem foreign_deletion (sv : Server rl) (h : sv.Regular) (hp : sv.peers conn = some p)
    (hc : Carries rl f (str "EVENT") m)
    (hparsed : Event.fromStructured rl.ext c.mem.event m = .ok ev)
    (hk : ev.kind = Kind.eventDeletion) (he : sv.Holds e)
    (hspells : Spells (ev.getTagContent (str "e")) e.id) (hne : e.author ≠ ev.author) :
    (∀ b, (sv.session p).eventDeletion c.mem conn { ev with trusted := b } =
      .error (.invalidArgument (str "pubkey missmatch"))) ∧
    (sv.step (.frame conn f c)).app.storage = sv.app.storage ∧
    (sv.step (.frame conn f c)).app.published = sv.app.published := by
  obtain ⟨i, hi⟩ := he
  have htarget : Session.deletionTarget c.mem ev = e.id := hspells.names.2 _
  have only {j : DocID} {e' : Event} (hj : (j, .event e') ∈ sv.app.records)
      (hid : e'.id = Session.deletionTarget c.mem ev) :
      e' = e := (h.valid.same_event hj hi (hid.trans htarget)).2
  constructor
  · intro b
    rcases (sv.session p).eventDeletion_spec h.valid c.mem conn { ev with trusted := b } with
      ⟨hno, _⟩ | ⟨j, e', hj, hid, _, hthrow⟩ | ⟨j, e', hj, hid, hauth, _⟩
    · exact absurd htarget.symm (hno i e hi)
    · exact hthrow
    · rw [only hj hid] at hauth
      exact absurd hauth hne
  · have hm := sv.step_moved h.valid (.frame conn f c)
    generalize sv.step (.frame conn f c) = sv' at hm ⊢
    cases hm with
    | still _ app peers => exact ⟨by rw [app], by rw [app]⟩
    | message _ _ _ q s' peer effect app peers =>
      cases hp.symm.trans peer
      have unmoved (ha : s'.app.Same sv.app) :
          sv'.app.storage = sv.app.storage ∧ sv'.app.published = sv.app.published :=
        ⟨by rw [app, ha.storage], by rw [app, ha.published]⟩
      have parsed {m' : Structured} {id : Str} {ns : Bool} {ev' : Event}
          (hc' : Carries rl f (str "EVENT") m')
          (passed : Session.Passed (sv.session p) c m' ns id ev') :
          ev' = (sv.session p).trust ev := by
        obtain ⟨e', hparsed', he'⟩ := passed.parsed
        cases hc'.same hc
        cases hparsed.symm.trans hparsed'
        exact he'
      have hkind : ((sv.session p).trust ev).kind = Kind.eventDeletion := by
        rcases (sv.session p).trust_cases ev with he | ⟨_, _, he⟩ <;> rw [he] <;> exact hk
      cases effect with
      | quiet q => exact unmoved q.app
      | awaits m id ev hc passed l hchk ha => exact unmoved ha
      | seen ev hpend ha => exact unmoved ha
      | dropped ha => exact unmoved ha
      | broadcast m id ev' hc' passed hephemeral =>
        rw [parsed hc' passed, hkind] at hephemeral
        exact absurd hephemeral (by decide)
      | published m id ev' old new hc' passed l hnk =>
        rw [parsed hc' passed] at hnk
        exact absurd hkind hnk
      | deleted m id ev' e' j new hc' passed l _ hj hid hauth =>
        have hev := parsed hc' passed
        rcases (sv.session p).trust_cases ev with he | ⟨_, _, he⟩ <;>
          rw [hev, he] at hid hauth <;> rw [only hj hid] at hauth <;> exact absurd hauth hne
      | reused data ev old new hfr => exact absurd hfr (hc.not_binary data)
      | uploaded data ev old new new' a hfr => exact absurd hfr (hc.not_binary data)

/-- In a run whose deletion requests spell what they delete, an event goes only when its
author asks for it or replaces it, and a request for someone else's event changes nothing. -/
theorem only_author_removes (inputs : List Input)
    (h : (machine rl).Throughout SpellsTarget inputs) :
    ∀ pre x post, inputs = pre ++ x :: post →
      (∀ e, (run rl pre).Holds e → ¬ (run rl (pre ++ [x])).Holds e →
        ∃ ev, Entered (run rl pre) (run rl (pre ++ [x])) ev ∧ ev.verify rl.ext = true ∧
          (ev.Deletes e ∨ ev.Supersedes e)) ∧
      ∀ conn f c p m ev e, x = .frame conn f c → (run rl pre).peers conn = some p →
        Carries rl f (str "EVENT") m →
        Event.fromStructured rl.ext c.mem.event m = .ok ev → ev.kind = Kind.eventDeletion →
        (run rl pre).Holds e →
        Spells (ev.getTagContent (str "e")) e.id → e.author ≠ ev.author →
        (∀ b, ((run rl pre).session p).eventDeletion c.mem conn { ev with trusted := b } =
          .error (.invalidArgument (str "pubkey missmatch"))) ∧
        (run rl (pre ++ [x])).app.storage = (run rl pre).app.storage ∧
        (run rl (pre ++ [x])).app.published = (run rl pre).app.published := by
  intro pre x post hin
  rw [run_step]
  refine ⟨fun e he hno => step_removes _ (run_regular pre) x (h pre x post hin) he hno, ?_⟩
  rintro conn f c p m ev e rfl hp hc hparsed hk he hspells hne
  exact foreign_deletion _ (run_regular pre) hp hc hparsed hk he hspells hne

def blankDeletion : Event := Event.parsed
  { kind := 5, createdAt := 1700000100
    id := .ofNat 0x80162e288d8719951a453ac6059703751ca7b73b46cf06d86189a0a2682e3638
    author := note.author
    sig := .ofNat 0x08d7b0fdc5087656150f1d94798260c44e4726cc395680a64c8b4a40fdfdaaec6948e38dcece9ff10a8a07eaba6be4b8b4700579f277b572881dd4f88f3f0701 }

def blankDeletionText : Str :=
  str "[0,\"f9308a019258c31049344f85f89d5229b531c845836f99b08601f113bce036f9\",1700000100,5,[],\"\"]"

def noteDeletion : Event := Event.parsed
  { kind := 5, createdAt := 1700000100, tags := [⟨str "e", note.id.toHex, []⟩]
    id := .ofNat 0x02b562c79000d086ca52134c68ea2cb57a680311edcd9001e4bbd39cb659fc06
    author := note.author
    sig := .ofNat 0x8833b8a56a68029e081b1df1885042769407de868d9df841c18065cbf1111ed98522e8d01ffc1ffa795d46d1f547570a7b3cff3088e7aa29687bba674ec4e9d1 }

def noteDeletionText : Str :=
  str "[0,\"f9308a019258c31049344f85f89d5229b531c845836f99b08601f113bce036f9\",1700000100,5,[[\"e\",\"9560462663421aa1f41a817b052e43987b465cca609fe3b642d5f792e4c939b6\"]],\"\"]"

def noteMessage : Structured := note.command "EVENT" note.id.toHex

def blankMessage : Structured := blankDeletion.command "EVENT" blankDeletion.id.toHex

def deletionMessage : Structured := noteDeletion.command "EVENT" noteDeletion.id.toHex

def deletionRelay (request : Structured) : Relay :=
  sampleRelay {} [(noteText, note), (blankDeletionText, blankDeletion),
    (noteDeletionText, noteDeletion)]
    [noteMessage, request]

def noteSent : List Input := [arrival, noteMessage.sent Memory.zeros]

/-- The array that `event_deletion` reads the target into held the note's id. -/
def targetLeft : Memory := { Memory.zeros with deletion := note.id }

/-- A request that names nothing takes down what the array happens to name. -/
theorem blank_deletion_removes : ¬ ∀ e, (run (deletionRelay blankMessage) noteSent).Holds e →
    ¬ (run (deletionRelay blankMessage) (noteSent ++ [blankMessage.sent targetLeft])).Holds e →
    ∃ ev, Entered (run (deletionRelay blankMessage) noteSent)
      (run (deletionRelay blankMessage) (noteSent ++ [blankMessage.sent targetLeft])) ev ∧
      ev.verify (deletionRelay blankMessage).ext = true ∧ (ev.Deletes e ∨ ev.Supersedes e) := by
  intro h
  have hbefore : (run (deletionRelay blankMessage) noteSent).app.records = [(1, .event note)] := by
    decide +kernel
  have hafter : (run (deletionRelay blankMessage)
      (noteSent ++ [blankMessage.sent targetLeft])).app.records =
      [(2, .event blankDeletion)] := by decide +kernel
  obtain ⟨ev, ⟨i, hi, -⟩, -, hwhy⟩ :=
    h note ⟨1, by rw [hbefore]; exact List.mem_singleton_self _⟩ (by
    rintro ⟨i, hi⟩
    rw [hafter, List.mem_singleton] at hi
    exact absurd (Prod.mk.inj hi).2 (by decide +kernel))
  rw [hafter, List.mem_singleton] at hi
  cases (Prod.mk.inj hi).2
  rcases hwhy with hdel | hsup
  · exact absurd hdel.2.2 (by decide +kernel)
  · exact absurd hsup.replaceable (by decide +kernel)

/-- A request that names the note takes it down, and is stored in its place. -/
theorem note_deletion_removes : ∃ ev, Entered (run (deletionRelay deletionMessage) noteSent)
    (run (deletionRelay deletionMessage) (noteSent ++ [deletionMessage.sent Memory.zeros])) ev ∧
    ev.verify (deletionRelay deletionMessage).ext = true ∧
    (ev.Deletes note ∨ ev.Supersedes note) := by
  have spells (sv : Server (deletionRelay deletionMessage)) (message : Structured) :
      sv.SpellsTarget (message.sent Memory.zeros) := by
    intro m ev hc hparsed hk _
    obtain ⟨msg, hm, -, rfl⟩ := hc.listed
    rcases List.mem_pair.mp hm with rfl | rfl
    · have hev : (Event.fromStructured (deletionRelay deletionMessage).ext Memory.zeros.event
          (noteMessage.item 1)).toOption = some note := by decide +kernel
      rw [hparsed] at hev
      cases hev
      exact absurd hk (by decide)
    · have hev : (Event.fromStructured (deletionRelay deletionMessage).ext Memory.zeros.event
          (deletionMessage.item 1)).toOption = some noteDeletion := by decide +kernel
      rw [hparsed] at hev
      cases hev
      decide +kernel
  have hbefore : (run (deletionRelay deletionMessage) noteSent).app.records =
      [(1, .event note)] := by decide +kernel
  have hafter : (run (deletionRelay deletionMessage)
      (noteSent ++ [deletionMessage.sent Memory.zeros])).app.records =
      [(2, .event noteDeletion)] := by decide +kernel
  have hrun : (machine (deletionRelay deletionMessage)).Throughout SpellsTarget
      (noteSent ++ [deletionMessage.sent Memory.zeros]) :=
    ((Machine.throughout_nil.snoc trivial).snoc (spells _ noteMessage)).snoc
      (spells _ deletionMessage)
  refine (only_author_removes _ hrun noteSent _ [] rfl).1 note
    ⟨1, by rw [hbefore]; exact List.mem_singleton_self _⟩ ?_
  rintro ⟨i, hi⟩
  rw [hafter, List.mem_singleton] at hi
  exact absurd (Prod.mk.inj hi).2 (by decide +kernel)

end Server

end NostrServer
