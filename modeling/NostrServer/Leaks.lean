import NostrServer.Acknowledge
import NostrServer.AttachmentRuns
import NostrServer.Uploads

namespace NostrServer
open Docdb

variable {rl : Relay}

structure Event.HeaderOf (ev : Event) (k : ID) : Prop where
  kind : ev.kind = Kind.fileHeader
  names : Names (ev.getTagContent (str "x")) k

namespace App

def ReferredTo (a : App rl) (k : ID) : Prop := ∃ i ev, (i, .event ev) ∈ a.records ∧ ev.HeaderOf k

/-- No attachment is leaked: each one stored has a stored event that refers to it. -/
def Unleaked (a : App rl) : Prop := ∀ j att, (j, .attachment att) ∈ a.records → a.ReferredTo att.id

theorem Same.unleaked {a b : App rl} (h : a.Same b) (hu : b.Unleaked) : a.Unleaked := by
  unfold Unleaked ReferredTo at hu ⊢
  rwa [h.records]

/-- What refers to an attachment still does if it is not the one replaced. -/
theorem Wrote.referredTo {a a' : App rl} {d : EventOrAttachment} {old new : DocID}
    (w : Wrote a a' d old new) (h : ∃ i ev, (i, .event ev) ∈ a.records ∧ i ≠ old ∧ ev.HeaderOf k) :
    a'.ReferredTo k := by
  obtain ⟨i, ev, hi, hne, href⟩ := h
  exact ⟨i, ev, (w.mem _).mpr (Or.inr ⟨hi, hne⟩), href⟩

theorem Wrote.unleaked {a a' : App rl} {ev : Event} {old new : DocID}
    (w : Wrote a a' (.event ev) old new) (hu : a.Unleaked)
    (hold : ∀ k i e, (i, .event e) ∈ a.records → e.HeaderOf k → i = old →
      (∃ j att, (j, .attachment att) ∈ a.records ∧ att.id = k) →
      ∃ i' e', (i', .event e') ∈ a.records ∧ i' ≠ old ∧ e'.HeaderOf k) : a'.Unleaked := by
  intro j att hj
  rcases (w.mem _).mp hj with he | ⟨hj, _⟩
  · cases he
  · obtain ⟨i, e, hi, href⟩ := hu j att hj
    by_cases hne : i = old
    · exact w.referredTo (hold att.id i e hi href hne ⟨j, att, hj, rfl⟩)
    · exact w.referredTo ⟨i, e, hi, hne, href⟩

/-- Replaceable events are no headers, so that replacing one takes no reference away. -/
theorem docToReplace_not_header {a : App rl} (hd : a.docToReplace ev = some old)
    (hi : (i, .event e) ∈ a.records) (href : e.HeaderOf k) : i ≠ old := by
  rintro rfl
  rcases a.docToReplace_spec ev with ⟨hd', _⟩ | ⟨hd', _⟩ | ⟨j, e', hd', he', hr, _⟩
  · cases hd'.symm.trans hd
  · cases hd'.symm.trans hd
    exact number_pos hi rfl
  · cases hd'.symm.trans hd
    cases same_record a.ids_nodup he' hi rfl
    rw [not_replaceable_fileHeader href.kind] at hr
    cases hr

theorem put_gcStarts {a a' : App rl} (h : a.put mem d old = some a') :
    a'.gcStarts = a.gcStarts := by
  obtain ⟨_, _, rfl⟩ := Option.map_eq_some_iff.mp h
  rfl

/-- Only deletion requests that come through `publish` ask for a collection. -/
theorem publish_gcStarts {a a' : App rl} (hk : ev.kind ≠ Kind.eventDeletion)
    (h : a.publish mem ev src = .ok a') :
    a'.gcStarts = a.gcStarts := by
  unfold publish at h
  split at h
  · cases h
    rfl
  · split at h
    · cases h
    · rename_i hp
      simp only [hk, ↓reduceIte] at h
      have hkept := put_gcStarts hp
      cases h
      exact hkept

theorem publishFile_gcStarts {a a' : App rl} (h : a.publishFile mem mem' ev att src = .ok a') :
    a'.gcStarts = a.gcStarts := by
  unfold publishFile at h
  dsimp only at h
  split at h
  · cases h
    rfl
  · split at h
    · cases h
    · rename_i hp
      obtain ⟨a₁, hp₁, hp₂⟩ := Option.bind_eq_some_iff.mp hp
      cases h
      exact (put_gcStarts hp₂).trans (put_gcStarts hp₁)

end App

namespace Session

theorem commitBatch_gcStarts (mem : Nat → IndexMemory) (ev : Event) (a a' : App rl)
    (ops : List BatchOp) (h : commitBatch mem ev a ops = some a') : a'.gcStarts = a.gcStarts := by
  induction ops generalizing a with
  | nil =>
    cases h
    rfl
  | cons op ops ih =>
    cases op with
    | put old =>
      obtain ⟨a₁, hp, h⟩ := Option.bind_eq_some_iff.mp h
      exact (ih a₁ h).trans (App.put_gcStarts hp)
    | erase i => exact ih (a.erase (mem ops.length) i) h

/-- `event_deletion` asks for no collection. -/
theorem eventDeletion_gcStarts {s s' : Session rl} (h : s.eventDeletion mem self ev = .ok s') :
    s'.app.gcStarts = s.app.gcStarts := by
  unfold eventDeletion at h
  dsimp only at h
  split at h
  · cases h
  split at h
  · cases h
  · rename_i hc
    have hkept := commitBatch_gcStarts _ _ _ _ _ hc
    cases h
    dsimp only [send]
    split <;> exact hkept

theorem store_gcStarts {s s' : Session rl} {id : Str}
    (hverify : ∀ id ev s s', onVerify id ev s = .ok s' → ev.kind ≠ Kind.eventDeletion →
      s'.app.gcStarts = s.app.gcStarts)
    (h : s.store mem self noSpecialEvents id ev onVerify = .ok s') :
    s'.app.gcStarts = s.app.gcStarts := by
  unfold store at h
  split at h
  · split at h
    · cases h
    · exact eventDeletion_gcStarts h
  · rename_i hk
    exact hverify id ev s s' h hk

theorem onEventGeneric_gcStarts (s : Session rl) (c : Circumstance) (self : Nat) (m : Structured)
    (onVerify : Str → Event → Session rl → Except Exn (Session rl)) (noSpecialEvents : Bool)
    (hverify : ∀ id ev s s', onVerify id ev s = .ok s' → ev.kind ≠ Kind.eventDeletion →
      s'.app.gcStarts = s.app.gcStarts) :
    (s.onEventGeneric c self m onVerify noSpecialEvents).app.gcStarts = s.app.gcStarts := by
  have h := s.onEventGeneric_outcome c self m onVerify noSpecialEvents
  generalize s.onEventGeneric c self m onVerify noSpecialEvents = s' at h ⊢
  cases h with
  | rejected id text quiet out => exact quiet.app.gcStarts
  | known id ev parsed special there => rfl
  | broadcast id ev s₁ passed kind special quiet => exact quiet.app.gcStarts
  | refused id ev s₁ e passed letIn quiet out threw => exact (quiet_caught quiet id e).app.gcStarts
  | stored id ev s₁ passed letIn quiet out done =>
    exact (store_gcStarts hverify done).trans quiet.app.gcStarts

theorem processBinaryMessage_gcStarts (s : Session rl) (mem : Memory) (data : Str)
    (hp : ∀ ev, s.peer.fileEvent = some ev → ev.kind = Kind.fileHeader) :
    (s.processBinaryMessage mem data).1.app.gcStarts = s.app.gcStarts := by
  unfold processBinaryMessage
  split
  · rfl
  rename_i ev hpend
  have hk : ({ ev with nip97 := true } : Event).kind ≠ Kind.eventDeletion := by
    rw [show ({ ev with nip97 := true } : Event).kind = Kind.fileHeader from hp ev hpend]
    decide
  dsimp only
  split
  · rfl
  split
  · rfl
  split
  · rename_i a hdone
    split at hdone
    · exact App.publish_gcStarts hk hdone
    · exact App.publishFile_gcStarts hdone
  · rfl

/-- No message asks for a collection: kind 5 never comes to `publish`. -/
theorem handle_gcStarts (s : Session rl) (conn : Nat) (f : Frame) (c : Circumstance)
    (hp : ∀ ev, s.peer.fileEvent = some ev → ev.kind = Kind.fileHeader) :
    (s.handle conn f c).1.app.gcStarts = s.app.gcStarts := by
  cases f with
  | text payload =>
    have h := s.processMessage_dispatched c conn payload
    change (s.processMessage c conn payload).app.gcStarts = _
    generalize s.processMessage c conn payload = s' at h ⊢
    cases h with
    | event msg o notices named =>
      apply onEventGeneric_gcStarts _ c conn (msg.item 1) _ false
      intro id ev s s' h hk
      unfold publishVerified at h
      split at h
      · rename_i hpub
        cases h
        exact App.publish_gcStarts hk hpub
      · cases h
    | file msg o notices named =>
      apply onEventGeneric_gcStarts _ c conn (msg.item 1) _ true
      intro id ev s s' h hk
      unfold awaitFile at h
      split at h <;> cases h <;> rfl
    | req msg o notices named done => exact ((quiet_commands _ c msg).1 _ done).app.gcStarts
    | close msg o notices named done => exact ((quiet_commands _ c msg).2.2.1 _ done).app.gcStarts
    | auth msg o notices named done =>
      exact ((quiet_commands _ c (msg.item 1)).2.2.2.1 _ done).app.gcStarts
    | other app peer => rw [app]
  | binary payload => exact s.processBinaryMessage_gcStarts c.mem payload hp
  | connClose => rfl
  | largeFrame => rfl
  | other => rfl

/-- The message brings the event to the end of `on_event_generic`. -/
structure Reaches (s : Session rl) (f : Frame) (c : Circumstance) (ev : Event) : Prop where
  passed : ∃ m id, Carries rl f (str "EVENT") m ∧ Passed s c m false id ev
  letIn : LetIn s c ev
  paced : (s.limited c.now).1 = true

/-- A deletion request that reaches the end and names an event of its author is stored in its
place. -/
theorem Reaches.deletes {s : Session rl} (hv : s.app.Valid) (h : Reaches s f c ev)
    (hk : ev.kind = Kind.eventDeletion) (hi : (i, .event e) ∈ s.app.records)
    (hid : e.id = deletionTarget c.mem ev) (hauth : e.author = ev.author) (conn : Nat) :
    ∃ new, App.Wrote s.app (s.handle conn f c).1.app (.event ev) i new := by
  obtain ⟨m, id, hc, passed⟩ := h.passed
  obtain ⟨o, msg, -, rfl, hhandle⟩ := s.handle_event conn c hc
  rw [hhandle]
  unfold onEvent
  obtain ⟨s₁, hq, -, hdone⟩ :=
    onEventGeneric_through (passed.with_out (s.out ++ o)) (h.letIn.with_out _)
    ((s.limited_with_out _ _).trans h.paced) conn (publishVerified c.mem conn)
  have hr : s₁.app.records = s.app.records := hq.app.records
  have hstore : s₁.store c.mem conn false id ev (publishVerified c.mem conn) =
      s₁.eventDeletion c.mem conn ev := by
    unfold store
    exact if_pos hk
  rw [hdone, hstore]
  have only {j : DocID} {e' : Event} (hj : (j, .event e') ∈ s₁.app.records)
      (hid' : e'.id = deletionTarget c.mem ev) :
      j = i ∧ e' = e := hv.same_event (hr ▸ hj) hi (hid'.trans hid.symm)
  rcases s₁.eventDeletion_spec (hq.app.valid hv) c.mem conn ev with
    ⟨hno, _⟩ | ⟨j, e', hj, hid', hne, _⟩ | ⟨j, e', hj, hid', _, ⟨_, ht⟩ | ⟨a, new, he, w, _⟩⟩
  · exact absurd hid (hno i e (hr ▸ hi))
  · rw [(only hj hid').2] at hne
    exact absurd hauth hne
  · obtain ⟨k, e'', hk', hid''⟩ := App.taken_plain (App.not_replaceable_deletion hk) ht
    exact absurd hid'' ((s.app.findEventById_eq_zero _).mp (passed.fresh rfl) k e'' (hr ▸ hk'))
  · rw [he]
    obtain ⟨rfl, -⟩ := only hj hid'
    exact ⟨new, hq.app.wrote ⟨w.fresh, w.mem, w.attachments, w.free⟩⟩

/-- What comes too soon stores nothing. -/
theorem paced_of_stored {s : Session rl} {ev : Event} {old new : DocID} (conn : Nat)
    (hc : Carries rl f (str "EVENT") m)
    (w : App.Wrote s.app (s.handle conn f c).1.app (.event ev) old new) :
    (s.limited c.now).1 = true := by
  cases hpaced : (s.limited c.now).1 with
  | true => rfl
  | false =>
    obtain ⟨o, msg, -, rfl, hhandle⟩ := s.handle_event conn c hc
    have hq := onEventGeneric_unpaced { s with out := s.out ++ o } c conn (msg.item 1)
      (publishVerified c.mem conn) false
      ((s.limited_with_out _ _).trans hpaced)
    have hr : (s.handle conn f c).1.app.records = s.app.records := by
      rw [hhandle]
      exact hq.app.records
    have hin := (w.mem _).mpr (Or.inl rfl)
    rw [hr] at hin
    exact absurd rfl (w.fresh _ hin)

end Session

namespace App

theorem killAttachment_gcStarts (a : App rl) (mem : IndexMemory) (k : ID) :
    (a.killAttachment mem k).gcStarts = a.gcStarts := by
  unfold killAttachment
  split <;> rfl

theorem runAttachmentGc_gcStarts (a : App rl) (mem : IndexMemory) :
    (a.runAttachmentGc mem).gcStarts = a.gcStarts := by
  unfold runAttachmentGc
  generalize (gcScan (a.attachments.mergeSort rowLe) []).reverse = killthem
  induction killthem generalizing a with
  | nil => rfl
  | cons k killthem ih => exact (ih _).trans (a.killAttachment_gcStarts mem k)

end App

namespace Server

/-- No message leaves an attachment behind: a deletion request does not take down the
last event that refers to one, and new data is named by its own event or a stored one. -/
def LeavesReferences (sv : Server rl) : Input → Prop
  | .frame conn f c => ∀ p, sv.peers conn = some p →
      (∀ ev i e j att, Session.Reaches (sv.session p) f c ev → ev.kind = Kind.eventDeletion →
        (i, .event e) ∈ sv.app.records → e.id = Session.deletionTarget c.mem ev →
        e.author = ev.author →
        (j, .attachment att) ∈ sv.app.records → e.HeaderOf att.id →
        ∃ i' e', (i', .event e') ∈ sv.app.records ∧ i' ≠ i ∧ e'.HeaderOf att.id) ∧
      ∀ data ev, f = .binary data → Session.Uploads (sv.session p) c data ev →
        Written 32 (ev.getTagContent (str "x")) ∨ sv.app.ReferredTo (rl.ext.sha256 data)
  | _ => True

theorem step_gcStarts (sv : Server rl) (h : sv.Regular) (x : Input) :
    (sv.step x).app.gcStarts = sv.app.gcStarts := by
  cases x with
  | connect conn authPubkey nonce =>
    dsimp only [step]
    split <;> rfl
  | frame conn f c =>
    cases hp : sv.peers conn with
    | none => simp [step, hp]
    | some p =>
      rw [sv.step_app hp]
      exact (sv.session p).handle_gcStarts conn f c (fun ev he => (h.pending conn p hp ev he).2)
  | gc mem => exact sv.app.runAttachmentGc_gcStarts mem

/-- In no state has a collection been asked for. -/
theorem never_collects (inputs : List Input) : (run rl inputs).app.gcStarts = 0 := by
  have h : (run rl inputs).Regular ∧ (run rl inputs).app.gcStarts = 0 :=
    Machine.run_always (m := machine rl) (P := fun sv => sv.Regular ∧ sv.app.gcStarts = 0)
      ⟨start_regular rl, rfl⟩
      (fun sv x hsv => ⟨step_regular sv hsv.1 x, (step_gcStarts sv hsv.1 x).trans hsv.2⟩) inputs
  exact h.2

/-- A text message that leaves no attachment behind. -/
theorem message_unleaked (sv : Server rl) (h : sv.Regular) (hu : sv.app.Unleaked)
    (hp : sv.peers conn = some p) (hf : ∀ data, f ≠ .binary data)
    (hx : sv.LeavesReferences (.frame conn f c)) :
    ((sv.session p).handle conn f c).1.app.Unleaked := by
  have heff := (sv.session p).handle_effect h.valid conn f c
  generalize hs : ((sv.session p).handle conn f c).1 = s' at heff ⊢
  cases heff with
  | quiet q => exact q.app.unleaked hu
  | broadcast m id ev hc passed hk hstorage =>
    have hr : s'.app.records = sv.app.records := by simp [App.records, hstorage, session]
    unfold App.Unleaked App.ReferredTo at hu ⊢
    rwa [hr]
  | awaits m id ev hc passed l hchk ha => exact ha.unleaked hu
  | seen ev hpend ha => exact ha.unleaked hu
  | dropped ha => exact ha.unleaked hu
  | published m id ev old new hc passed l hk hd w =>
    exact w.unleaked hu (fun k i e hi href he => absurd he (App.docToReplace_not_header hd hi href))
  | deleted m id ev e i new hc passed l hk hi hid hauth w =>
    have hreaches : Session.Reaches (sv.session p) f c ev :=
      ⟨⟨m, id, hc, passed⟩, l, Session.paced_of_stored conn hc (hs ▸ w)⟩
    apply w.unleaked hu
    intro k i' e' hi' href he hstored
    subst he
    obtain ⟨j, att, hj, rfl⟩ := hstored
    cases same_record sv.app.ids_nodup hi' hi rfl
    exact (hx p hp).1 ev i' _ j att hreaches hk hi hid hauth hj href
  | reused data ev old new hfr => exact absurd hfr (hf data)
  | uploaded data ev old new new' a hfr => exact absurd hfr (hf data)

/-- A binary message that leaves no attachment behind. -/
theorem binary_unleaked (sv : Server rl) (h : sv.Regular) (hu : sv.app.Unleaked)
    (hp : sv.peers conn = some p) (hx : sv.LeavesReferences (.frame conn (.binary data) c)) :
    ((sv.session p).processBinaryMessage c.mem data).1.app.Unleaked := by
  cases hpend : p.fileEvent with
  | none =>
    rw [Session.processBinaryMessage_unwanted hpend]
    exact hu
  | some ev =>
    have hk := (h.pending conn p hp ev hpend).2
    have hrec := (sv.session p).processBinaryMessage_received c data hpend hk
    generalize ((sv.session p).processBinaryMessage c.mem data).1 = s' at hrec ⊢
    cases hrec with
    | refused text app => exact app ▸ hu
    | duplicate fits known app => exact app ▸ hu
    | reused new fits unknown there w =>
      exact w.unleaked hu (fun k i e hi href he => absurd he (App.number_pos hi))
    | uploaded a new new' fits unknown missing w w' =>
      have hua := w.unleaked hu (fun k i e hi href he => absurd he (App.number_pos hi))
      have later {k : ID} (href : a.ReferredTo k) : s'.app.ReferredTo k := by
        obtain ⟨i, e, hi, href⟩ := href
        exact w'.referredTo ⟨i, e, hi, App.number_pos hi, href⟩
      intro j att hj
      rcases (w'.mem _).mp hj with he | ⟨hj, _⟩
      · cases he
        apply later
        rcases (hx p hp).2 data ev rfl ⟨fits, unknown, missing⟩ with hwritten | ⟨i, e, hi, href⟩
        · exact ⟨new, _, (w.mem _).mpr (Or.inl rfl), hk, hwritten,
            fun u => (fromHex_written hwritten u _).trans fits.hash.symm⟩
        · exact w.referredTo ⟨i, e, hi, App.number_pos hi, href⟩
      · exact later (hua j att hj)

theorem handle_unleaked (sv : Server rl) (h : sv.Regular) (hu : sv.app.Unleaked)
    (hp : sv.peers conn = some p) (hx : sv.LeavesReferences (.frame conn f c)) :
    ((sv.session p).handle conn f c).1.app.Unleaked := by
  cases f with
  | binary data => exact binary_unleaked sv h hu hp hx
  | text payload => exact message_unleaked sv h hu hp (fun data hf => (nomatch hf)) hx
  | connClose => exact hu
  | largeFrame => exact hu
  | other => exact hu

/-- And only such messages do. -/
theorem leavesReferences_of_unleaked (sv : Server rl) (h : sv.Regular) (x : Input)
    (hu : (sv.step x).app.Unleaked) :
    sv.LeavesReferences x := by
  cases x with
  | connect conn authPubkey nonce => trivial
  | gc mem => trivial
  | frame conn f c =>
    intro p hp
    rw [sv.step_app hp] at hu
    refine ⟨fun ev i e j att hreaches hk hi hid hauth hj href => ?_, fun data ev hf hup => ?_⟩
    · obtain ⟨new, w⟩ := hreaches.deletes h.valid hk hi hid hauth conn
      have hne : j ≠ i := by
        rintro rfl
        cases same_record sv.app.ids_nodup hi hj rfl
      obtain ⟨i', e', hi', href'⟩ := hu j att ((w.mem _).mpr (Or.inr ⟨hj, hne⟩))
      rcases (w.mem _).mp hi' with he | ⟨hi', hne'⟩
      · cases he
        exact absurd (hk.symm.trans href'.kind) (by decide)
      · exact ⟨i', e', hi', hne', href'⟩
    · subst hf
      obtain ⟨a, new, new', w, w'⟩ := hup.stores h.filed (h.pending conn p hp ev hup.pending).2
      obtain ⟨i, e, hi, href⟩ := hu new' _ ((w'.mem _).mpr (Or.inl rfl))
      rcases (w'.mem _).mp hi with he | ⟨hi, _⟩
      · cases he
      · rcases (w.mem _).mp hi with he | ⟨hi, _⟩
        · cases he
          exact Or.inl href.names.1
        · exact Or.inr ⟨i, e, hi, href⟩

theorem step_unleaked (sv : Server rl) (h : sv.Regular) (hu : sv.app.Unleaked) (x : Input)
    (hx : sv.LeavesReferences x) :
    (sv.step x).app.Unleaked := by
  cases x with
  | connect conn authPubkey nonce =>
    dsimp only [step]
    split <;> exact hu
  | frame conn f c =>
    cases hp : sv.peers conn with
    | none => simpa [step, hp] using hu
    | some p =>
      rw [sv.step_app hp]
      exact handle_unleaked sv h hu hp hx
  | gc mem =>
    have hc := sv.app.runAttachmentGc_collected h.valid h.filed mem
    intro j att hj
    obtain ⟨i, ev, hi, href⟩ := hu j att ((hc.attachments j att).mp hj).1
    exact ⟨i, ev, (hc.events i ev).mpr hi, href⟩

theorem start_unleaked (rl : Relay) : (start rl).app.Unleaked := by
  have hr : (start rl).app.records = [] := rl.db.records_empty
  intro j att hj
  rw [hr] at hj
  cases hj

/-- In no run is a collection asked for, and so no attachment is leaked in any state exactly
when every message leaves a stored event that refers to what it could leave behind. -/
theorem nothing_leaked_iff (inputs : List Input) : (run rl inputs).app.gcStarts = 0 ∧
    ((∀ pre post, inputs = pre ++ post → (run rl pre).app.Unleaked) ↔
      (machine rl).Throughout LeavesReferences inputs) := by
  refine ⟨never_collects inputs, ?_⟩
  apply Machine.always_iff_throughout (m := machine rl) (P := fun sv => sv.app.Unleaked)
    (I := fun sv => sv.Regular ∧ sv.app.Unleaked)
  · exact ⟨start_regular rl, start_unleaked rl⟩
  · exact fun sv hsv => hsv.2
  · intro sv x hsv hx
    exact ⟨step_regular sv hsv.1 x, step_unleaked sv hsv.1 hsv.2 x hx⟩
  · intro sv x hsv hnext
    exact leavesReferences_of_unleaked sv hsv.1 x hnext

def fileDeletion : Event := Event.parsed
  { kind := 5, createdAt := 1700000200, tags := [⟨str "e", namedFile.id.toHex, []⟩]
    id := .ofNat 0xa50a20c11f1d82b7c32de96ff7a4fbcad7ffc97e5d344bf063d9593b14f1beec
    author := note.author
    sig := .ofNat 0x7d9b9512fd9baf8f5adbf2cb143f140b46452b63054bcf8dcfdbfcbcd9c59177540d58e3fea44825eaef1707ab772883394ad457ac8cc06bc848efcbf663f33d }

def fileDeletionText : Str :=
  str "[0,\"f9308a019258c31049344f85f89d5229b531c845836f99b08601f113bce036f9\",1700000200,5,[[\"e\",\"c9554209e1b16a829455ece35dbc87489c84c58cae0da527532c99a901f5a12a\"]],\"\"]"

def fileDeletionMessage : Structured := fileDeletion.command "EVENT" fileDeletion.id.toHex

def leakRelay : Relay :=
  plainRelay (tabled [(namedText, namedFile.id), (fileDeletionText, fileDeletion.id),
    (fileData, fileHash)]
    [(namedFile.id, namedFile.author, namedFile.sig),
      (fileDeletion.id, fileDeletion.author, fileDeletion.sig)]
    [namedMessage, fileDeletionMessage]) {}

def fileDeleted : List Input := upload namedMessage ++ [fileDeletionMessage.sent Memory.zeros]

/-- The request takes the file's only header down, and its data stays. -/
theorem deleted_file_leaked :
    ¬ ∀ pre post, fileDeleted = pre ++ post → (run leakRelay pre).app.Unleaked := by
  intro h
  have hrecords : (run leakRelay fileDeleted).app.records =
      [(3, .event fileDeletion), (2, .attachment ⟨fileHash, fileData⟩)] := by decide +kernel
  obtain ⟨i, ev, hi, href⟩ :=
    h fileDeleted [] (List.append_nil _).symm 2 ⟨fileHash, fileData⟩ (by simp [hrecords])
  rw [hrecords] at hi
  rcases List.mem_pair.mp hi with he | he
  · cases he
    exact absurd href.kind (by decide)
  · cases he

end Server

end NostrServer
