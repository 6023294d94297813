import NostrServer.Server

namespace NostrServer
open Docdb

variable {rl : Relay}

namespace App

theorem Same.records {a b : App rl} (h : a.Same b) : a.records = b.records := by
  simp [App.records, h.storage]

theorem Same.docToReplace {a b : App rl} (h : a.Same b) (ev : Event) :
    a.docToReplace ev = b.docToReplace ev := by
  simp only [App.docToReplace, App.findReplaceable, h.records]

theorem Same.wrote {a b a' : App rl} {d : EventOrAttachment} {old id : DocID} (h : a.Same b)
    (w : Wrote a a' d old id) : Wrote b a' d old id := by
  refine ⟨h.records ▸ w.fresh, h.records ▸ w.mem, ?_, h.records ▸ w.free⟩
  obtain ⟨mem, he⟩ := w.attachments
  exact ⟨mem, by simpa [App.find, h.records, h.attachments] using he⟩

theorem Same.valid {a b : App rl} (h : a.Same b) (hv : b.Valid) : a.Valid :=
  ⟨h.records ▸ hv.unique, h.records ▸ hv.indexed⟩

end App

/-- The text of the message is this value, and the value this command. -/
def Commands (rl : Relay) (f : Frame) (cmd : Str) (msg : Structured) : Prop :=
  ∃ payload, f = .text payload ∧ rl.ext.fromJson payload = some msg ∧
    rl.ext.asStringView (msg.item 0) = some cmd

theorem Commands.carries (h : Commands rl f cmd msg) : Carries rl f cmd (msg.item 1) := by
  obtain ⟨payload, hf, hmsg, hcmd⟩ := h
  exact ⟨payload, msg, hf, hmsg, hcmd, rfl⟩

namespace Session
variable {s s' : Session rl}

/-- How a text message is handled: by its command, or with nothing but replies. A message
that is too long is complained about first. -/
inductive Dispatched (s : Session rl) (c : Circumstance) (conn : Nat)
    (f : Frame) : Session rl → Prop where
  | event (msg : Structured) (o : List Reply) (notices : ∀ r ∈ o, ∃ text, r = .notice text)
      (named : Commands rl f (str "EVENT") msg) :
      Dispatched s c conn f ({ s with out := s.out ++ o }.onEvent c conn msg)
  | file (msg : Structured) (o : List Reply) (notices : ∀ r ∈ o, ∃ text, r = .notice text)
      (named : Commands rl f (str "FILE") msg) :
      Dispatched s c conn f ({ s with out := s.out ++ o }.onFile c conn msg)
  | req {s' : Session rl} (msg : Structured) (o : List Reply)
    (notices : ∀ r ∈ o, ∃ text, r = .notice text)
      (named : Commands rl f (str "REQ") msg)
        (done : { s with out := s.out ++ o }.onReq c msg = some s') :
      Dispatched s c conn f s'
  | close {s' : Session rl} (msg : Structured) (o : List Reply)
    (notices : ∀ r ∈ o, ∃ text, r = .notice text)
      (named : Commands rl f (str "CLOSE") msg)
        (done : { s with out := s.out ++ o }.onClose msg = some s') :
      Dispatched s c conn f s'
  | auth {s' : Session rl} (msg : Structured) (o : List Reply)
    (notices : ∀ r ∈ o, ∃ text, r = .notice text)
      (named : Commands rl f (str "AUTH") msg)
      (done : { s with out := s.out ++ o }.processAuth c (msg.item 1) = some s') :
      Dispatched s c conn f s'
  | other {s' : Session rl} (app : s'.app = s.app) (peer : s'.peer = s.peer) :
    Dispatched s c conn f s'

theorem processMessage_dispatched (s : Session rl) (c : Circumstance) (conn : Nat) (payload : Str) :
    Dispatched s c conn (.text payload) (s.processMessage c conn payload) := by
  have hnoticed : ∃ o, (∀ r ∈ o, ∃ text, r = .notice text) ∧
      (if payload.length > rl.options.maxMessageSize
      then s.sendNotice (str "Text message is too long") else s) = { s with out :=
        s.out ++ o } := by
    split
    · exact ⟨[.notice (str "Text message is too long")], by simp, rfl⟩
    · exact ⟨[], by simp, by simp⟩
  obtain ⟨o, ho, hs⟩ := hnoticed
  unfold processMessage
  rw [hs]
  dsimp only
  split
  · exact .other rfl rfl
  rename_i msg hmsg
  split
  · exact .other rfl rfl
  rename_i cmd hcmd
  have named {cmd' : Str} (he : cmd = cmd') : Commands rl (.text payload) cmd' msg :=
    ⟨payload, rfl, hmsg, he ▸ hcmd⟩
  have attempted (d : Option (Session rl))
      (h : ∀ s', d = some s' → Dispatched s c conn (.text payload) s') :
      Dispatched s c conn (.text payload)
        (d.getD ({ s with out := s.out ++ o }.sendNotice
          (str "error: Internal error - command ignored"))) := by
    cases d with
    | none => exact .other rfl rfl
    | some s' => exact h s' rfl
  split
  · rename_i he
    exact .event msg o ho (named he)
  split
  · rename_i he
    exact attempted _ (fun s' hd => .req msg o ho (named he) hd)
  split
  · apply attempted _
    intro s' hd
    unfold onCount at hd
    split at hd
    · cases hd
      exact .other rfl rfl
    · cases hd
  split
  · rename_i he
    exact attempted _ (fun s' hd => .close msg o ho (named he) hd)
  split
  · rename_i he
    exact attempted _ (fun s' hd => .auth msg o ho (named he) hd)
  split
  · rename_i he
    exact .file msg o ho (named he)
  split
  · apply attempted _
    intro s' hd
    obtain ⟨id, _, rfl⟩ := Option.map_eq_some_iff.mp hd
    split <;> exact .other rfl rfl
  · exact .other rfl rfl

theorem onEvent_effect (s : Session rl) (hv : s.app.Valid) (c : Circumstance)
    (conn : Nat) (f : Frame) (msg : Structured) (hc : Carries rl f (str "EVENT") (msg.item 1)) :
    Effect s conn f c (s.onEvent c conn msg) := by
  unfold onEvent
  have h := s.onEventGeneric_outcome c conn (msg.item 1) (publishVerified c.mem conn) false
  generalize s.onEventGeneric c conn (msg.item 1) (publishVerified c.mem conn) false = s' at h ⊢
  cases h with
  | rejected id text quiet out => exact .quiet quiet
  | known id ev parsed special there => exact .quiet (quiet_send (Quiet.refl s) _)
  | broadcast id ev s₁ passed kind special quiet =>
    refine .broadcast (msg.item 1) id ev hc passed kind quiet.app.storage quiet.app.attachments ?_
      quiet.fileEvent
      quiet.noLimit
    simp [send, App.publishEvent, quiet.app.published]
  | refused id ev s₁ e passed letIn quiet out threw => exact .quiet (quiet_caught quiet id e)
  | stored id ev s₁ passed letIn quiet out done =>
    unfold store at done
    split at done
    · rename_i hkind
      simp only [Bool.false_eq_true, ↓reduceIte] at done
      rcases s₁.eventDeletion_spec (quiet.app.valid hv) c.mem conn ev with
        ⟨_, he⟩ | ⟨_, _, _, _, _, he⟩ | ⟨i, e, hmem, hid, hauth, ⟨he, _⟩ | ⟨a, new, he, w, hpub⟩⟩
      · rw [he] at done
        cases done
        exact .quiet (quiet_send quiet _)
      · rw [he] at done
        cases done
      · rw [he] at done
        cases done
      · rw [he] at done
        cases done
        refine .deleted (msg.item 1) id ev e i new hc passed letIn hkind
          (quiet.app.records ▸ hmem) hid hauth
          (quiet.app.wrote ?_) ?_ quiet.fileEvent quiet.noLimit
        · exact ⟨w.fresh, w.mem, w.attachments, w.free⟩
        · simp [send, hpub, quiet.app.published]
    · rename_i hkind
      unfold publishVerified at done
      split at done
      · rename_i a hpub
        cases done
        rcases App.publish_spec hpub with ⟨_, rfl⟩ | ⟨old, new, hd, w, hp⟩
        · exact .quiet (quiet_send quiet _)
        · refine .published (msg.item 1) id ev old new hc passed letIn hkind
            (quiet.app.docToReplace ev ▸ hd)
            (quiet.app.wrote ⟨w.fresh, w.mem, w.attachments, w.free⟩) ?_
              quiet.fileEvent quiet.noLimit
          simp [send, hp, quiet.app.published]
      · cases done

theorem onFile_effect (s : Session rl) (c : Circumstance) (conn : Nat) (f : Frame)
    (msg : Structured) (hc : Carries rl f (str "FILE") (msg.item 1)) :
    Effect s conn f c (s.onFile c conn msg) := by
  unfold onFile
  have h := s.onEventGeneric_outcome c conn (msg.item 1) awaitFile true
  generalize s.onEventGeneric c conn (msg.item 1) awaitFile true = s' at h ⊢
  cases h with
  | rejected id text quiet out => exact .quiet quiet
  | known id ev parsed special there => cases special
  | broadcast id ev s₁ passed kind special quiet => cases special
  | refused id ev s₁ e passed letIn quiet out threw => exact .quiet (quiet_caught quiet id e)
  | stored id ev s₁ passed letIn quiet out done =>
    unfold store at done
    split at done
    · simp at done
    · unfold awaitFile at done
      split at done
      · rename_i hcheck
        cases done
        exact .awaits (msg.item 1) id ev hc passed letIn hcheck quiet.app rfl quiet.noLimit
      all_goals
        cases done
        exact .quiet (quiet_send quiet _)

theorem processBinaryMessage_effect (s : Session rl) (c : Circumstance) (conn : Nat) (data : Str) :
    Effect s conn (.binary data) c (s.processBinaryMessage c.mem data).1 := by
  unfold processBinaryMessage
  split
  · exact .quiet (quiet_send (Quiet.refl s) _)
  rename_i ev hpend
  dsimp only
  split
  · exact .quiet (quiet_send (Quiet.refl s) _)
  rename_i hhash
  simp only [not_or, Classical.not_not] at hhash
  split
  · exact .seen ev hpend App.Same.rfl rfl rfl
  by_cases hatt : s.app.findAttachment (rl.ext.sha256 data) ≠ 0
  · simp only [hatt, ↓reduceIte, ne_eq, not_false_eq_true]
    split
    · rename_i a hpub
      rcases App.publish_spec hpub with ⟨_, rfl⟩ | ⟨old, new, hd, w, hp⟩
      · exact .dropped App.Same.rfl rfl rfl
      · exact .reused data ev old new rfl hpend hhash.2 hatt hd ⟨w.fresh, w.mem,
          w.attachments, w.free⟩ hp rfl rfl
    · exact .dropped App.Same.rfl rfl rfl
  · simp only [hatt, ↓reduceIte]
    split
    · rename_i a hpub
      rcases App.publishFile_spec hpub with ⟨_, rfl⟩ | ⟨old, new, a₁, new', hd, w, w', hp⟩
      · exact .dropped App.Same.rfl rfl rfl
      · have hz : s.app.findAttachment (rl.ext.sha256 data) = 0 := Classical.not_not.mp hatt
        rw [hz] at w'
        exact .uploaded data ev old new new' a₁ rfl hpend hhash.2 hz hd w
          ⟨w'.fresh, w'.mem, w'.attachments, w'.free⟩ hp rfl rfl
    · exact .dropped App.Same.rfl rfl rfl

/-- Replies sent before make no difference. -/
theorem Effect.of_out {o : List Reply} (h : Effect { s with out := o } conn f c s') :
    Effect s conn f c s' := by
  have hp {m : Structured} {ns : Bool} {id : Str} {ev : Event}
      (p : Passed { s with out := o } c m ns id ev) :
      Passed s c m ns id ev := p.with_out s.out
  have hl {ev : Event} (l : LetIn { s with out := o } c ev) : LetIn s c ev := l.with_out s.out
  cases h with
  | quiet q => exact .quiet ⟨q.app, q.fileEvent, q.noLimit⟩
  | broadcast m id ev hc p hk h₁ h₂ h₃ h₄ h₅ => exact .broadcast m id ev hc (hp p) hk h₁ h₂ h₃ h₄ h₅
  | published m id ev old new hc p l h₁ h₂ h₃ h₄ h₅ h₆ =>
    exact .published m id ev old new hc (hp p) (hl l) h₁ h₂ h₃ h₄ h₅ h₆
  | deleted m id ev e i new hc p l h₁ h₂ h₃ h₄ h₅ h₆ h₇ h₈ =>
    exact .deleted m id ev e i new hc (hp p) (hl l) h₁ h₂ h₃ h₄ h₅ h₆ h₇ h₈
  | awaits m id ev hc p l h₁ h₂ h₃ h₄ => exact .awaits m id ev hc (hp p) (hl l) h₁ h₂ h₃ h₄
  | seen ev h₁ h₂ h₃ h₄ => exact .seen ev h₁ h₂ h₃ h₄
  | dropped h₁ h₂ h₃ => exact .dropped h₁ h₂ h₃
  | reused data ev old new h₁ h₂ h₃ h₄ h₅ h₆ h₇ h₈ h₉ =>
    exact .reused data ev old new h₁ h₂ h₃ h₄ h₅ h₆ h₇ h₈ h₉
  | uploaded data ev old new new' a h₁ h₂ h₃ h₄ h₅ h₆ h₇ h₈ h₉ h₁₀ =>
    exact .uploaded data ev old new new' a h₁ h₂ h₃ h₄ h₅ h₆ h₇ h₈ h₉ h₁₀

/-- The commands that neither store nor publish. -/
theorem quiet_commands (s : Session rl) (c : Circumstance) (msg : Structured) :
    (∀ s', s.onReq c msg = some s' → Quiet s s') ∧ (∀ s', s.onCount c msg = some s' → Quiet s s') ∧
    (∀ s', s.onClose msg = some s' → Quiet s s') ∧
    (∀ s', s.processAuth c msg = some s' → Quiet s s') ∧
    ∀ s', s.onRetrieve c msg = some s' → Quiet s s' := by
  refine ⟨fun s' h => ?_, fun s' h => ?_, fun s' h => ?_, fun s' h => ?_, fun s' h => ?_⟩
  · unfold onReq at h
    split at h
    · split at h <;> cases h <;> exact ⟨App.Same.rfl, rfl, rfl⟩
    · cases h
  · unfold onCount at h
    split at h
    · cases h
      exact ⟨App.Same.rfl, rfl, rfl⟩
    · cases h
  · obtain ⟨id, _, rfl⟩ := Option.map_eq_some_iff.mp h
    exact ⟨App.Same.rfl, rfl, rfl⟩
  · obtain ⟨id, _, rfl⟩ := Option.map_eq_some_iff.mp h
    split <;> exact ⟨App.Same.rfl, rfl, rfl⟩
  · obtain ⟨id, _, rfl⟩ := Option.map_eq_some_iff.mp h
    split <;> exact ⟨App.Same.rfl, rfl, rfl⟩

theorem processMessage_effect (s : Session rl) (hv : s.app.Valid) (c : Circumstance) (conn : Nat)
    (payload : Str) :
    Effect s conn (.text payload) c (s.processMessage c conn payload) := by
  have h := s.processMessage_dispatched c conn payload
  generalize s.processMessage c conn payload = s' at h ⊢
  cases h with
  | event msg o notices named =>
    exact .of_out (onEvent_effect { s with out := s.out ++ o } hv c conn _ msg named.carries)
  | file msg o notices named => exact .of_out (onFile_effect _ c conn _ msg named.carries)
  | req msg o notices named done => exact .of_out (.quiet ((quiet_commands _ c msg).1 _ done))
  | close msg o notices named done => exact .of_out (.quiet ((quiet_commands _ c msg).2.2.1 _ done))
  | auth msg o notices named done =>
    exact .of_out (.quiet ((quiet_commands _ c (msg.item 1)).2.2.2.1 _ done))
  | other app peer => exact .quiet ⟨app ▸ App.Same.rfl, by rw [peer], by rw [peer]⟩

/-- Every message has one of these effects. -/
theorem handle_effect (s : Session rl) (hv : s.app.Valid) (conn : Nat) (f : Frame)
    (c : Circumstance) :
    Effect s conn f c (s.handle conn f c).1 := by
  cases f with
  | text payload => exact s.processMessage_effect hv c conn payload
  | binary payload => exact s.processBinaryMessage_effect c conn payload
  | connClose => exact .quiet (Quiet.refl s)
  | largeFrame => exact .quiet (quiet_send (Quiet.refl s) _)
  | other => exact .quiet (Quiet.refl s)

end Session

end NostrServer
