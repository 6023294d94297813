import NostrServer.AttachmentGc

namespace NostrServer
open Docdb

variable {rl : Relay}

theorem Session.trust_cases (s : Session rl) (ev : Event) : s.trust ev = ev ∨
    (s.peer.authent = true ∧ s.app.isHomeUser s.peer.authPubkey = true ∧
      s.trust ev = { ev with trusted := true }) := by
  unfold trust
  split
  · rename_i h
    simp only [Bool.and_eq_true] at h
    exact Or.inr ⟨h.1, h.2, rfl⟩
  · exact Or.inl rfl

theorem Session.Passed.indexed {s : Session rl} {id : Str} (h : Passed s c m ns id ev) :
    ev.Indexed rl.ext.hasher := by
  obtain ⟨ev', hparsed, rfl⟩ := h.parsed
  have hi := (Event.fromStructured_ok hparsed).2.1
  rcases s.trust_cases ev' with he | ⟨_, _, he⟩
  · rw [he]
    exact hi
  · rw [he]
    exact hi

namespace Server

/-- Everything an input can do. -/
inductive Moved (sv : Server rl) : Input → Server rl → Prop where
  | still (x : Input) (app : sv'.app = sv.app)
      (peers : ∀ i q, sv'.peers i = some q → sv.peers i = some q ∨
        (q.fileEvent = none ∧ q.noLimit = false)) :
      Moved sv x sv'
  | gc (mem : IndexMemory) : Moved sv (.gc mem) { sv with app := sv.app.runAttachmentGc mem }
  | message (conn : Nat) (f : Frame) (c : Circumstance) (p : Peer) (s' : Session rl)
    (peer : sv.peers conn = some p)
      (effect : Session.Effect (sv.session p) conn f c s') (app : sv'.app = s'.app)
      (peers : ∀ i q, sv'.peers i = some q → (i = conn ∧ q = s'.peer) ∨ sv.peers i = some q) :
      Moved sv (.frame conn f c) sv'

theorem step_moved (sv : Server rl) (hv : sv.app.Valid) (x : Input) : Moved sv x (sv.step x) := by
  cases x with
  | connect conn authPubkey nonce =>
    simp only [step]
    split
    · exact .still _ rfl (fun i q h => Or.inl h)
    · refine .still _ rfl (fun i q h => ?_)
      dsimp only [setPeer] at h
      split at h
      · cases h
        exact Or.inr ⟨rfl, rfl⟩
      · exact Or.inl h
  | frame conn f c =>
    simp only [step]
    split
    · exact .still _ rfl (fun i q h => Or.inl h)
    · rename_i p hp
      have heff := (sv.session p).handle_effect hv conn f c
      generalize (sv.session p).handle conn f c = handled at heff ⊢
      obtain ⟨s', stays⟩ := handled
      refine .message conn f c p s' hp heff rfl (fun i q h => ?_)
      dsimp only [setPeer] at h
      split at h
      · rename_i hi
        cases stays with
        | true =>
          cases h
          exact Or.inl ⟨hi, rfl⟩
        | false => cases h
      · exact Or.inr h
  | gc mem => exact .gc mem

/-- The event is in the storage under a number that was not in use. -/
def Entered (sv sv' : Server rl) (ev : Event) : Prop :=
  ∃ i, (i, .event ev) ∈ sv'.app.records ∧ ∀ r ∈ sv.app.records, r.1 ≠ i

/-- What holds of the server throughout: the storage and the attachment index are in
order, no connection is free of limits, and pending files come from the parser. -/
structure Regular (sv : Server rl) : Prop where
  valid : sv.app.Valid
  filed : sv.app.Filed
  unprivileged : ∀ i p, sv.peers i = some p → p.noLimit = false
  pending : ∀ i p, sv.peers i = some p → ∀ ev, p.fileEvent = some ev →
    ev.Indexed rl.ext.hasher ∧ ev.kind = Kind.fileHeader

end Server

theorem App.Same.filed {a b : App rl} (h : a.Same b) (hf : b.Filed) : a.Filed := by
  have hr := h.records
  have ha := h.attachments
  exact ⟨hr ▸ hf.hashed, by rw [hr, ha]; exact hf.row, by rw [hr, ha]; exact hf.rowOf,
    ha ▸ hf.apart⟩

/-- Only headers of files are kept to wait for one. -/
theorem fileCheck_kind (h : Session.fileCheck maxSize ev = .ok ()) : ev.kind = Kind.fileHeader := by
  unfold Session.fileCheck at h
  split at h
  · cases h
  · rename_i hk
    exact Classical.not_not.mp hk

namespace Session

/-- A message keeps the storage and the attachment index in order. -/
theorem Effect.kept {s s' : Session rl} (h : Effect s conn f c s') (hv : s.app.Valid)
    (hf : s.app.Filed) (hp : ∀ ev, s.peer.fileEvent = some ev → ev.Indexed rl.ext.hasher) :
    s'.app.Valid ∧ s'.app.Filed := by
  have one {a a' : App rl} {ev : Event} {old new : DocID} (w : App.Wrote a a' (.event ev) old new)
      (hv : a.Valid)
      (hf : a.Filed) (hi : ev.Indexed rl.ext.hasher) : a'.Valid ∧ a'.Filed :=
    ⟨w.valid hv (fun e he => by cases he; exact hi), w.filed hv hf (fun att he => by cases he)⟩
  cases h with
  | quiet q => exact ⟨q.app.valid hv, q.app.filed hf⟩
  | broadcast m id ev hc p hk hs ha hpub =>
    have hr : s'.app.records = s.app.records := by simp [App.records, hs]
    exact ⟨⟨hr ▸ hv.unique, hr ▸ hv.indexed⟩,
      ⟨hr ▸ hf.hashed, by rw [hr, ha]; exact hf.row, by rw [hr, ha]; exact hf.rowOf, ha ▸ hf.apart⟩⟩
  | published m id ev old new hc p l hk hd w => exact one w hv hf p.indexed
  | deleted m id ev e i new hc p l hk ht hid hauth w => exact one w hv hf p.indexed
  | awaits m id ev hc p l hchk ha => exact ⟨ha.valid hv, ha.filed hf⟩
  | seen ev hpend ha => exact ⟨ha.valid hv, ha.filed hf⟩
  | dropped ha => exact ⟨ha.valid hv, ha.filed hf⟩
  | reused data ev old new hfr hpend hh hatt hd w => exact one w hv hf (hp ev hpend)
  | uploaded data ev old new new' a hfr hpend hh hatt hd w w' =>
    obtain ⟨hv', hf'⟩ := one w hv hf (hp ev hpend)
    refine ⟨w'.valid hv' (fun e he => by cases he), w'.filed hv' hf' (fun att he => ?_)⟩
    cases he
    rfl

/-- What a peer waits for after a message it waited for before, or was just sent. -/
theorem Effect.pending {s s' : Session rl} (h : Effect s conn f c s')
    (hn : s'.peer.fileEvent = some ev) :
    s.peer.fileEvent = some ev ∨
    (∃ ev', s.peer.fileEvent = some ev' ∧ ev = { ev' with nip97 := true }) ∨
    ∃ m id, Carries rl f (str "FILE") m ∧ Passed s c m true id ev ∧ LetIn s c ev ∧
      fileCheck rl.options.attachmentMaxSize ev = .ok () := by
  cases h with
  | quiet q => exact Or.inl (q.fileEvent ▸ hn)
  | broadcast m id ev' hc p hk hs ha hpub hfe => exact Or.inl (hfe ▸ hn)
  | published m id ev' old new hc p l hk hd w hpub hfe => exact Or.inl (hfe ▸ hn)
  | deleted m id ev' e i new hc p l hk ht hid hauth w hpub hfe => exact Or.inl (hfe ▸ hn)
  | awaits m id ev' hc p l hchk ha hfe =>
    cases hfe.symm.trans hn
    exact Or.inr (Or.inr ⟨m, id, hc, p, l, hchk⟩)
  | seen ev' hpend ha hfe =>
    cases hfe.symm.trans hn
    exact Or.inr (Or.inl ⟨ev', hpend, rfl⟩)
  | dropped ha hfe => cases hfe.symm.trans hn
  | reused data ev' old new hfr hpend hh hatt hd w hpub hfe => cases hfe.symm.trans hn
  | uploaded data ev' old new new' a hfr hpend hh hatt hd w w' hpub hfe => cases hfe.symm.trans hn

theorem Effect.noLimit {s s' : Session rl} (h : Effect s conn f c s') :
    s'.peer.noLimit = s.peer.noLimit := by
  cases h with
  | quiet q => exact q.noLimit
  | _ => assumption

end Session

namespace Server

theorem step_regular (sv : Server rl) (h : sv.Regular) (x : Input) : (sv.step x).Regular := by
  have hm := sv.step_moved h.valid x
  generalize sv.step x = sv' at hm ⊢
  cases hm with
  | still _ app peers =>
    refine ⟨app ▸ h.valid, app ▸ h.filed, fun i q hq => ?_, fun i q hq ev he => ?_⟩
    · rcases peers i q hq with hq | ⟨_, hn⟩
      · exact h.unprivileged i q hq
      · exact hn
    · rcases peers i q hq with hq | ⟨hn, _⟩
      · exact h.pending i q hq ev he
      · rw [hn] at he
        cases he
  | gc mem =>
    have hc := sv.app.runAttachmentGc_collected h.valid h.filed mem
    exact ⟨hc.valid, hc.filed, h.unprivileged, h.pending⟩
  | message conn f c p s' peer effect app peers =>
    have hold := h.pending conn p peer
    obtain ⟨hv, hf⟩ := effect.kept h.valid h.filed (fun ev he => (hold ev he).1)
    refine ⟨app ▸ hv, app ▸ hf, fun i q hq => ?_, fun i q hq ev he => ?_⟩
    · rcases peers i q hq with ⟨rfl, rfl⟩ | hq
      · exact effect.noLimit.trans (h.unprivileged _ p peer)
      · exact h.unprivileged i q hq
    · rcases peers i q hq with ⟨rfl, rfl⟩ | hq
      · rcases effect.pending he with he | ⟨ev', he', rfl⟩ | ⟨m, id, _, hp, _, hchk⟩
        · exact hold ev he
        · exact hold ev' he'
        · exact ⟨hp.indexed, fileCheck_kind hchk⟩
      · exact h.pending i q hq ev he

theorem start_regular (rl : Relay) : (start rl).Regular := by
  have hr : (start rl).app.records = [] := rl.db.records_empty
  refine ⟨⟨?_, ?_⟩, ⟨?_, ?_, ?_, List.Pairwise.nil⟩, fun i p h => (nomatch h),
    fun i p h => (nomatch h)⟩
  · rw [hr]
    intro r h
    cases h
  · rw [hr]
    intro r h
    cases h
  · rw [hr]
    intro i att h
    cases h
  · intro r h
    cases h
  · rw [hr]
    intro i att h
    cases h

theorem run_regular (inputs : List Input) : (run rl inputs).Regular :=
  Machine.run_always (m := machine rl) (start_regular rl) (fun sv x h => step_regular sv h x) inputs

end Server

end NostrServer
