import NostrServer.Connection
import NostrServer.ReferenceServer
import NostrServer.Steps

namespace NostrServer
open Docdb

variable {rl : Relay}

theorem Commands.unique (h : Commands rl f cmd msg) (h' : Commands rl f cmd' msg') :
    cmd = cmd' ∧ msg = msg' := by
  obtain ⟨payload, rfl, hmsg, hcmd⟩ := h
  obtain ⟨payload', hf, hmsg', hcmd'⟩ := h'
  cases hf
  cases hmsg.symm.trans hmsg'
  cases hcmd.symm.trans hcmd'
  exact ⟨rfl, rfl⟩

/-- A content that is not empty is that of the last tag of the name. -/
theorem getTag_of_content {ev : Event} (h : ev.getTagContent name = content) (hn : content ≠ []) :
    ∃ t, ev.getTag name = some t ∧ t.content = content := by
  unfold Event.getTagContent at h
  split at h
  · rename_i t ht
    exact ⟨t, ht, h⟩
  · exact absurd h.symm hn

structure AnswersChallenge (rl : Relay) (f : Frame) (c : Circumstance) (nonce : Str)
    (ev : Event) : Prop where
  carried : ∃ m, Carries rl f (str "AUTH") m ∧ Event.fromStructured rl.ext c.mem.event m = .ok ev
  id : ev.calcId rl.ext = ev.id
  signed : ev.verify rl.ext = true
  kind : ev.kind = Kind.clientAuthentication
  challenge : ∃ t, ev.getTag (str "challenge") = some t ∧ t.content = nonce

namespace Session

theorem authCheck_ok {s : Session rl} (hn : s.peer.authNonce ≠ [])
    (hc : Carries rl f (str "AUTH") m) (h : s.authCheck c m = .ok k) :
    ∃ ev, AnswersChallenge rl f c s.peer.authNonce ev ∧ ev.author = k := by
  unfold authCheck at h
  split at h
  · cases h
  rename_i ev hparsed
  split at h
  · cases h
  rename_i hsigned
  split at h
  · cases h
  rename_i hkind
  split at h
  · cases h
  split at h
  · cases h
  rename_i hchallenge
  cases h
  exact ⟨ev, ⟨⟨m, hc, hparsed⟩, (Event.fromStructured_ok hparsed).1, by simpa using hsigned,
    Classical.not_not.mp hkind, getTag_of_content (Classical.not_not.mp hchallenge) hn⟩, rfl⟩

/-- An AUTH message is answered with an error and changes nothing, or authenticates the
connection. -/
theorem processAuth_cases {s s' : Session rl} (h : s.processAuth c m = some s') :
    (s'.peer = s.peer ∧ ∃ id text, s'.out = s.out ++ [.ok id false (str "restricted:" ++ text)]) ∨
    ∃ k id, s.authCheck c m = .ok k ∧ s'.peer = { s.peer with authent := true, authPubkey := k } ∧
      s'.out = s.out ++ [.ok id true (str "Welcome to relay!")] := by
  obtain ⟨id, _, rfl⟩ := Option.map_eq_some_iff.mp h
  cases hcheck : s.authCheck c m with
  | ok k => exact Or.inr ⟨k, id, rfl, rfl, rfl⟩
  | error e => exact Or.inl ⟨rfl, id, Exn.what e, rfl⟩

def KeepsAuth (p q : Peer) : Prop :=
  q.authNonce = p.authNonce ∧ q.authent = p.authent ∧ q.authPubkey = p.authPubkey

theorem Steady.keepsAuth {s s' : Session rl} (h : Steady s s') : KeepsAuth s.peer s'.peer :=
  ⟨h.authNonce, h.authent, h.authPubkey⟩

/-- A message leaves the authentication as it was, or answers the challenge. -/
theorem handle_auth (s : Session rl) (hn : s.peer.authNonce ≠ []) (conn : Nat) (f : Frame)
    (c : Circumstance) :
    KeepsAuth s.peer (s.handle conn f c).1.peer ∨
    ((s.handle conn f c).1.peer.authNonce = s.peer.authNonce ∧
      ∃ ev, AnswersChallenge rl f c s.peer.authNonce ev ∧
        (s.handle conn f c).1.peer.authPubkey = ev.author) := by
  cases f with
  | binary data => exact Or.inl (s.processBinaryMessage_steady c.mem data).keepsAuth
  | connClose => exact Or.inl ⟨rfl, rfl, rfl⟩
  | largeFrame => exact Or.inl ⟨rfl, rfl, rfl⟩
  | other => exact Or.inl ⟨rfl, rfl, rfl⟩
  | text payload =>
    have h := s.processMessage_dispatched c conn payload
    dsimp only [handle]
    generalize s.processMessage c conn payload = s' at h ⊢
    cases h with
    | event msg o notices named =>
      exact Or.inl (onEvent_steady { s with out := s.out ++ o } c conn msg).keepsAuth
    | file msg o notices named =>
      exact Or.inl (onFile_steady { s with out := s.out ++ o } c conn msg).keepsAuth
    | req msg o notices named done =>
      unfold onReq at done
      split at done
      · split at done <;> cases done <;> exact Or.inl ⟨rfl, rfl, rfl⟩
      · cases done
    | close msg o notices named done =>
      obtain ⟨id, _, rfl⟩ := Option.map_eq_some_iff.mp done
      exact Or.inl ⟨rfl, rfl, rfl⟩
    | auth msg o notices named done =>
      rcases processAuth_cases done with ⟨hpeer, _⟩ | ⟨k, id, hcheck, hpeer, _⟩
      · rw [hpeer]
        exact Or.inl ⟨rfl, rfl, rfl⟩
      · obtain ⟨ev, hanswers, hk⟩ :=
          authCheck_ok (s := { s with out := s.out ++ o }) hn named.carries hcheck
        rw [hpeer]
        exact Or.inr ⟨rfl, ev, hanswers, hk.symm⟩
    | other app peer =>
      rw [peer]
      exact Or.inl ⟨rfl, rfl, rfl⟩

/-- An AUTH message that is answered with a restriction changes nothing of the peer. -/
theorem restricted_unchanged (s : Session rl) (conn : Nat) (c : Circumstance) {id text : Str}
    (named : Commands rl f (str "AUTH") msg) (hout : s.out = [])
    (hr : .ok id false text ∈ (s.handle conn f c).1.out) :
    (s.handle conn f c).1.peer = s.peer ∧ (s.handle conn f c).2 = true := by
  have hnamed := named
  obtain ⟨payload, rfl, -⟩ := hnamed
  have h := s.processMessage_dispatched c conn payload
  dsimp only [handle] at hr ⊢
  refine ⟨?_, rfl⟩
  generalize s.processMessage c conn payload = s' at h hr ⊢
  cases h with
  | event msg o notices named' => exact absurd (named.unique named').1 (by decide)
  | file msg o notices named' => exact absurd (named.unique named').1 (by decide)
  | req msg o notices named' done => exact absurd (named.unique named').1 (by decide)
  | close msg o notices named' done => exact absurd (named.unique named').1 (by decide)
  | other app peer => exact peer
  | auth msg o notices named' done =>
    rcases processAuth_cases done with ⟨hpeer, _⟩ | ⟨k, id', _, _, hsent⟩
    · exact hpeer
    · rw [hsent, hout] at hr
      simp only [List.nil_append, List.mem_append, List.mem_singleton, Reply.ok.injEq,
        Bool.false_eq_true, false_and, and_false, or_false] at hr
      obtain ⟨text', ht⟩ := notices _ hr
      cases ht

def Source (s : Session rl) (f : Frame) (c : Circumstance) (ev : Event) : Prop :=
  (∃ m id, Carries rl f (str "EVENT") m ∧ Passed s c m false id ev) ∨
  ∃ ev', s.peer.fileEvent = some ev' ∧ ev = { ev' with nip97 := true }

theorem Effect.sources {s s' : Session rl} (h : Effect s conn f c s') :
    (∀ i ev, (i, .event ev) ∈ s'.app.records → (i, .event ev) ∈ s.app.records ∨ s.Source f c ev) ∧
    ∀ e ∈ s'.app.published, e ∈ s.app.published ∨ s.Source f c e.1 := by
  have one {ev : Event} {src : Option Nat} (hs : s.Source f c ev)
      (hp : s'.app.published = s.app.published ++ [(ev, src)]) :
      ∀ e ∈ s'.app.published, e ∈ s.app.published ∨ s.Source f c e.1 := by
    intro e he
    rw [hp] at he
    rcases List.mem_append.mp he with he | he
    · exact Or.inl he
    · exact Or.inr (List.mem_singleton.mp he ▸ hs)
  have wrote {ev : Event} {old new : DocID} (hs : s.Source f c ev)
      (w : App.Wrote s.app s'.app (.event ev) old new) :
      ∀ i e, (i, .event e) ∈ s'.app.records → (i, .event e) ∈ s.app.records ∨ s.Source f c e := by
    intro i e hi
    rcases (w.mem _).mp hi with he | ⟨hi, _⟩
    · cases he
      exact Or.inr hs
    · exact Or.inl hi
  have same (ha : s'.app.Same s.app) : (∀ i ev, (i, .event ev) ∈ s'.app.records →
      (i, .event ev) ∈ s.app.records ∨ s.Source f c ev) ∧ ∀ e ∈ s'.app.published,
        e ∈ s.app.published ∨ s.Source f c e.1 :=
    ⟨fun i ev hi => Or.inl (ha.records ▸ hi), fun e he => Or.inl (ha.published ▸ he)⟩
  cases h with
  | quiet q => exact same q.app
  | awaits m id ev hc p l hchk ha => exact same ha
  | seen ev hpend ha => exact same ha
  | dropped ha => exact same ha
  | broadcast m id ev hc p hk hs ha hpub =>
    have hr : s'.app.records = s.app.records := by simp [App.records, hs]
    exact ⟨fun i e hi => Or.inl (hr ▸ hi), one (Or.inl ⟨m, id, hc, p⟩) hpub⟩
  | published m id ev old new hc p l hk hd w hpub =>
    exact ⟨wrote (Or.inl ⟨m, id, hc, p⟩) w, one (Or.inl ⟨m, id, hc, p⟩) hpub⟩
  | deleted m id ev e i new hc p l hk ht hid hauth w hpub =>
    exact ⟨wrote (Or.inl ⟨m, id, hc, p⟩) w, one (Or.inl ⟨m, id, hc, p⟩) hpub⟩
  | reused data ev old new hfr hpend hh hatt hd w hpub =>
    exact ⟨wrote (Or.inr ⟨ev, hpend, rfl⟩) w, one (Or.inr ⟨ev, hpend, rfl⟩) hpub⟩
  | uploaded data ev old new new' a hfr hpend hh hatt hd w w' hpub =>
    refine ⟨fun i e hi => ?_, one (Or.inr ⟨ev, hpend, rfl⟩) hpub⟩
    rcases (w'.mem _).mp hi with he | ⟨hi, _⟩
    · cases he
    · rcases (w.mem _).mp hi with he | ⟨hi, _⟩
      · cases he
        exact Or.inr (Or.inr ⟨ev, hpend, rfl⟩)
      · exact Or.inl hi

end Session

namespace Server

/-- The connection was taken with this nonce, and has stayed since; the inputs after. -/
def Since (rl : Relay) (inputs : List Input) (conn : Nat) (nonce : Str)
    (since : List Input) : Prop :=
  ∃ before k, inputs = before ++ .connect conn k nonce :: since ∧
    (run rl before).peers conn = none ∧
    ∀ mid rest, since = mid ++ rest →
      ((run rl (before ++ .connect conn k nonce :: mid)).peers conn).isSome = true

theorem Since.later (h : Since rl inputs conn nonce since)
    (hq : (run rl (inputs ++ [x])).peers conn = some q) :
    Since rl (inputs ++ [x]) conn nonce (since ++ [x]) := by
  obtain ⟨before, k, rfl, hfree, hstays⟩ := h
  refine ⟨before, k, by simp, hfree, fun mid rest he => ?_⟩
  rcases List.eq_nil_or_concat rest with rfl | ⟨rest, y, rfl⟩
  · rw [List.append_nil] at he
    subst he
    have hq' : (run rl (before ++ .connect conn k nonce :: (since ++ [x]))).peers conn =
        some q := by simpa using hq
    rw [hq', Option.isSome_some]
  · rw [List.concat_eq_append, ← List.append_assoc] at he
    exact hstays mid rest (List.append_inj' he rfl).1

theorem since_taken (hfree : (run rl pre).peers conn = none) (k : Pubkey) (nonce : Str) :
    Since rl (pre ++ [.connect conn k nonce]) conn nonce [] := by
  refine ⟨pre, k, rfl, hfree, fun mid rest he => ?_⟩
  obtain ⟨rfl, rfl⟩ := List.append_eq_nil_iff.mp he.symm
  rw [run_step]
  simp [step, hfree, setPeer]

/-- The connection has received an answer to its challenge, by this author. -/
def Authenticated (rl : Relay) (inputs : List Input) (conn : Nat) (k : Pubkey) : Prop :=
  ∃ nonce since f c ev, Since rl inputs conn nonce since ∧ .frame conn f c ∈ since ∧
    AnswersChallenge rl f c nonce ev ∧ ev.author = k

/-- The message brought the event, on a connection that had authenticated a home user. -/
structure Vouched (rl : Relay) (pre : List Input) (conn : Nat) (f : Frame) (c : Circumstance)
    (cmd : Str) (ev : Event) : Prop where
  carried : ∃ m ev', Carries rl f cmd m ∧ Event.fromStructured rl.ext c.mem.event m = .ok ev' ∧
    ev = { ev' with trusted := true, nip97 := ev.nip97 }
  home : ∃ k, Authenticated rl pre conn k ∧ (run rl pre).app.isHomeUser k = true

/-- The event was submitted in such a message, with its data to follow or without. -/
def Submitted (rl : Relay) (inputs : List Input) (ev : Event) : Prop :=
  ∃ pre conn f c post cmd, inputs = pre ++ .frame conn f c :: post ∧
    (cmd = str "EVENT" ∨ cmd = str "FILE") ∧
    Vouched rl pre conn f c cmd ev

theorem Submitted.later (h : Submitted rl inputs ev) (x : Input) :
    Submitted rl (inputs ++ [x]) ev := by
  obtain ⟨pre, conn, f, c, post, cmd, rfl, hcmd, hv⟩ := h
  exact ⟨pre, conn, f, c, post ++ [x], cmd, by simp, hcmd, hv⟩

theorem Submitted.marked (h : Submitted rl inputs ev) (b : Bool) :
    Submitted rl inputs { ev with nip97 := b } := by
  obtain ⟨pre, conn, f, c, post, cmd, he, hcmd, ⟨m, ev', hc, hparsed, hev⟩, hhome⟩ := h
  exact ⟨pre, conn, f, c, post, cmd, he, hcmd, ⟨m, ev', hc, hparsed, by rw [hev]⟩, hhome⟩

/-- What a connection remembers of its authentication is what it has received. -/
structure Remembers (rl : Relay) (inputs : List Input) (conn : Nat) (p : Peer) : Prop where
  nonce : p.authNonce ≠ []
  received : ∃ since, Since rl inputs conn p.authNonce since ∧ (p.authent = true → ∃ f c ev,
    .frame conn f c ∈ since ∧ AnswersChallenge rl f c p.authNonce ev ∧ ev.author = p.authPubkey)

def Challenged : Input → Prop
  | .connect _ _ nonce => ∃ rnum, nonce = Session.prepareAuthChallenge rnum
  | _ => True

theorem prepareAuthChallenge_ne_nil (rnum : Nat → UInt8) :
    Session.prepareAuthChallenge rnum ≠ [] := by
  simp [Session.prepareAuthChallenge]

theorem Remembers.authenticated (h : Remembers rl inputs conn p) (ha : p.authent = true) :
    Authenticated rl inputs conn p.authPubkey := by
  obtain ⟨since, hsince, hreceived⟩ := h.received
  obtain ⟨f, c, ev, hin, hanswers, hk⟩ := hreceived ha
  exact ⟨p.authNonce, since, f, c, ev, hsince, hin, hanswers, hk⟩

/-- The authentication stays what the connection has received. -/
theorem step_remembers (hx : Challenged x)
    (h : ∀ conn p, (run rl pre).peers conn = some p → Remembers rl pre conn p) :
    ∀ conn p, (run rl (pre ++ [x])).peers conn = some p → Remembers rl (pre ++ [x]) conn p := by
  intro conn q hq
  have hstep := hq
  rw [run_step] at hstep
  rcases (run rl pre).step_peers x hstep with
    ⟨hold, _⟩ | ⟨k, nonce, rfl, hfree, rfl⟩ | ⟨p, f, c, hp, rfl, rfl⟩
  · obtain ⟨hnonce, since, hsince, hreceived⟩ := h conn q hold
    refine ⟨hnonce, _, hsince.later hq, fun ha => ?_⟩
    obtain ⟨f, c, ev, hin, hanswers, hk⟩ := hreceived ha
    exact ⟨f, c, ev, List.mem_append_left _ hin, hanswers, hk⟩
  · obtain ⟨rnum, rfl⟩ := hx
    exact ⟨prepareAuthChallenge_ne_nil rnum, [], since_taken hfree k _,
      fun ha => absurd ha (by simp)⟩
  · obtain ⟨hnonce, since, hsince, hreceived⟩ := h conn p hp
    have hauth := ((run rl pre).session p).handle_auth hnonce conn f c
    generalize ((run rl pre).session p).handle conn f c = handled at hq hauth
    rcases hauth with ⟨hn, ha, hk⟩ | ⟨hn, ev, hanswers, hk⟩
    · have hn : handled.1.peer.authNonce = p.authNonce := hn
      have ha : handled.1.peer.authent = p.authent := ha
      have hk : handled.1.peer.authPubkey = p.authPubkey := hk
      rw [← hn] at hsince hnonce
      refine ⟨hnonce, _, hsince.later hq, fun h' => ?_⟩
      obtain ⟨f', c', ev, hin, hanswers, hev⟩ := hreceived (ha ▸ h')
      exact ⟨f', c', ev, List.mem_append_left _ hin, hn ▸ hanswers, hev.trans hk.symm⟩
    · have hn : handled.1.peer.authNonce = p.authNonce := hn
      rw [← hn] at hsince hnonce
      refine ⟨hnonce, _, hsince.later hq, fun _ => ⟨f, c, ev, by simp, ?_, hk.symm⟩⟩
      rw [hn]
      exact hanswers

/-- Trust comes from `on_event_generic`, with the home user it saw. -/
theorem vouched_of_passed {pre : List Input} {p : Peer} {id cmd : Str} {ev : Event}
    (hp : Remembers rl pre conn p) (hc : Carries rl f cmd m)
    (passed : Session.Passed ((run rl pre).session p) c m ns id ev) (ht : ev.trusted = true) :
    Vouched rl pre conn f c cmd ev := by
  obtain ⟨ev', hparsed, rfl⟩ := passed.parsed
  obtain ⟨-, -, -, huntrusted, -⟩ := Event.fromStructured_ok hparsed
  rcases ((run rl pre).session p).trust_cases ev' with he | ⟨ha, hhome, he⟩
  · rw [he, huntrusted] at ht
    cases ht
  · refine ⟨⟨m, ev', hc, hparsed, ?_⟩, p.authPubkey, hp.authenticated ha, hhome⟩
    rw [he]

/-- What the server holds of trusted events was submitted as such. -/
structure Trustworthy (rl : Relay) (inputs : List Input) : Prop where
  peers : ∀ conn p, (run rl inputs).peers conn = some p → Remembers rl inputs conn p
  pending : ∀ conn p ev, (run rl inputs).peers conn = some p → p.fileEvent = some ev →
    ev.trusted = true →
    Submitted rl inputs ev
  stored : ∀ i ev, (i, .event ev) ∈ (run rl inputs).app.records → ev.trusted = true →
    Submitted rl inputs ev
  published : ∀ e ∈ (run rl inputs).app.published, e.1.trusted = true → Submitted rl inputs e.1

theorem step_trustworthy (hx : Challenged x) (h : Trustworthy rl pre) :
    Trustworthy rl (pre ++ [x]) := by
  have hpeers := step_remembers hx h.peers
  have hregular : (run rl pre).Regular := run_regular pre
  have hm := (run rl pre).step_moved hregular.valid x
  rw [← run_step] at hm
  generalize hsv : run rl (pre ++ [x]) = sv' at hm hpeers
  cases hm with
  | still _ app peers =>
    refine ⟨hsv ▸ hpeers, fun conn q ev hq he ht => ?_, fun i ev hi ht => ?_, fun e he ht => ?_⟩
    · rw [hsv] at hq
      rcases peers conn q hq with hq | ⟨hn, _⟩
      · exact (h.pending conn q ev hq he ht).later x
      · rw [hn] at he
        cases he
    · rw [hsv, app] at hi
      exact (h.stored i ev hi ht).later x
    · rw [hsv, app] at he
      exact (h.published e he ht).later x
  | gc mem =>
    have hc := (run rl pre).app.runAttachmentGc_collected hregular.valid hregular.filed mem
    refine ⟨hsv ▸ hpeers, fun conn q ev hq he ht => ?_, fun i ev hi ht => ?_, fun e he ht => ?_⟩
    · rw [hsv] at hq
      exact (h.pending conn q ev hq he ht).later _
    · rw [hsv] at hi
      exact (h.stored i ev ((hc.events i ev).mp hi) ht).later _
    · rw [hsv] at he
      exact (h.published e (hc.published ▸ he) ht).later _
  | message conn f c p s' peer effect app peers =>
    have now {m : Structured} {id cmd : Str} {ns : Bool} {ev : Event}
        (hcmd : cmd = str "EVENT" ∨ cmd = str "FILE")
        (hc : Carries rl f cmd m) (passed : Session.Passed ((run rl pre).session p) c m ns id ev)
        (ht : ev.trusted = true) : Submitted rl (pre ++ [.frame conn f c]) ev :=
      ⟨pre, conn, f, c, [], cmd, rfl, hcmd, vouched_of_passed (h.peers conn p peer) hc passed ht⟩
    have source {ev : Event} (hs : ((run rl pre).session p).Source f c ev)
        (ht : ev.trusted = true) :
        Submitted rl (pre ++ [.frame conn f c]) ev := by
      rcases hs with ⟨m, id, hc, passed⟩ | ⟨ev', hpend, rfl⟩
      · exact now (Or.inl rfl) hc passed ht
      · exact ((h.pending conn p ev' peer hpend ht).later _).marked true
    obtain ⟨hrecords, hpublished⟩ := effect.sources
    refine ⟨hsv ▸ hpeers, fun conn' q ev hq he ht => ?_, fun i ev hi ht => ?_, fun e he ht => ?_⟩
    · rw [hsv] at hq
      rcases peers conn' q hq with ⟨rfl, rfl⟩ | hq
      · rcases effect.pending he with he | ⟨ev', he', rfl⟩ | ⟨m, id, hc, passed, -⟩
        · exact (h.pending _ p ev peer he ht).later _
        · exact ((h.pending _ p ev' peer he' ht).later _).marked true
        · exact now (Or.inr rfl) hc passed ht
      · exact (h.pending conn' q ev hq he ht).later _
    · rw [hsv, app] at hi
      rcases hrecords i ev hi with hi | hs
      · exact (h.stored i ev hi ht).later _
      · exact source hs ht
    · rw [hsv, app] at he
      rcases hpublished e he with he | hs
      · exact (h.published e he ht).later _
      · exact source hs ht

theorem run_trustworthy (inputs : List Input) (h : ∀ x ∈ inputs, Challenged x) :
    Trustworthy rl inputs := by
  induction inputs using List.reverseRecOn with
  | nil =>
    refine ⟨fun conn p hp => (nomatch hp), fun conn p ev hp => (nomatch hp), fun i ev hi => ?_,
      fun e he => (nomatch he)⟩
    have hr : (run rl []).app.records = [] := rl.db.records_empty
    rw [hr] at hi
    cases hi
  | append_singleton pre x ih =>
    exact step_trustworthy (h x (by simp)) (ih (fun y hy => h y (by simp [hy])))

/-- In every run, whatever is stored or published as trusted was submitted on a connection
that had answered its own challenge before, by a home user of that moment; and an AUTH
message that is answered with a restriction leaves its connection as it was. -/
theorem trusted_authenticated (inputs : List Input) (h : ∀ x ∈ inputs, Challenged x) :
    (∀ i ev, (i, .event ev) ∈ (run rl inputs).app.records → ev.trusted = true →
      Submitted rl inputs ev) ∧
    (∀ e ∈ (run rl inputs).app.published, e.1.trusted = true → Submitted rl inputs e.1) ∧
    ∀ pre conn f c post p msg id text, inputs = pre ++ .frame conn f c :: post →
      (run rl pre).peers conn = some p →
      Commands rl f (str "AUTH") msg →
      (conn, .ok id false (str "restricted:" ++ text)) ∈
        (run rl (pre ++ [.frame conn f c])).sent.drop (run rl pre).sent.length →
      (run rl (pre ++ [.frame conn f c])).peers conn = some p := by
  have hrun : Trustworthy rl inputs := run_trustworthy inputs h
  refine ⟨hrun.stored, hrun.published, ?_⟩
  intro pre conn f c post p msg id text _ hp named hsent
  rw [run_step] at hsent ⊢
  simp only [step, hp, List.drop_left] at hsent ⊢
  obtain ⟨r, hr, he⟩ := List.mem_map.mp hsent
  obtain rfl := (Prod.mk.inj he).2
  obtain ⟨hpeer, hstays⟩ := ((run rl pre).session p).restricted_unchanged conn c named rfl hr
  simp only [hstays, hpeer, setPeer, ↓reduceIte]
  rfl

def challengeAnswer : Event := Event.parsed
  { kind := 22242, createdAt := 1700000010, tags := [⟨str "challenge", str "abcdefghijklmno", []⟩]
    id := .ofNat 0x22fbde123e61495bebcc17de54c4dcca43281535a2be5c0fb9bc56ba8278ecc5
    author := note.author
    sig := .ofNat 0xc80514f3e7c54ff332adfc5e8b8a5e3f379ef41e855aca555edde6ba6c3b158c7ce5231862b3fc80023398ec352215bd5cef82d282d00c7abb4052c4b7f3bc62 }

def challengeAnswerText : Str :=
  str "[0,\"f9308a019258c31049344f85f89d5229b531c845836f99b08601f113bce036f9\",1700000010,22242,[[\"challenge\",\"abcdefghijklmno\"]],\"\"]"

def homeMessages : List Structured :=
  [note.command "EVENT" note.id.toHex, challengeAnswer.command "AUTH" challengeAnswer.id.toHex,
    laterNote.command "EVENT" laterNote.id.toHex]

def homeRelay : Relay :=
  sampleRelay {} [(noteText, note), (challengeAnswerText, challengeAnswer),
    (laterNoteText, laterNote)] homeMessages

/-- Someone's first note makes them a home user, who authenticates and sends another. -/
def homeInputs : List Input :=
  .connect 0 (.ofNat 0) (str "abcdefghijklmno") ::
    homeMessages.map (fun msg => msg.sent Memory.zeros)

theorem later_note_vouched :
    (2, .event { laterNote with trusted := true }) ∈ (run homeRelay homeInputs).app.records ∧
    Submitted homeRelay homeInputs { laterNote with trusted := true } := by
  have hin :
      (2, .event { laterNote with trusted := true }) ∈ (run homeRelay homeInputs).app.records := by
    decide +kernel
  refine ⟨hin, (trusted_authenticated homeInputs (fun x hx => ?_)).1 2 _ hin rfl⟩
  rcases List.mem_cons.mp hx with rfl | hx
  · exact ⟨fun i => UInt8.ofNat (97 + i), by decide +kernel⟩
  · obtain ⟨msg, _, rfl⟩ := List.mem_map.mp hx
    trivial

end Server

end NostrServer
