import NostrServer.Admission
import NostrServer.Removal

namespace NostrServer
open Docdb

variable {rl : Relay}

namespace App

/-- The event's NIP-05 name is not another document's than the one it would replace. -/
def NameFree (a : App rl) (ev : Event) : Prop :=
  ∀ old, a.docToReplace ev = some old → ∀ name ∈ indexNip05Fn rl.ext (.event ev), ∀ r ∈ a.records,
    name ∈ indexNip05Fn rl.ext r.2 → r.1 = old

/-- The event, or a newer one in its place. -/
def Settled (a : App rl) (ev : Event) : Prop :=
  (∃ i e, (i, .event e) ∈ a.records ∧ e.id = ev.id) ∨
  ∃ i e, (i, .event e) ∈ a.records ∧ replaceable e = true ∧ e.author = ev.author ∧
    e.kind = ev.kind ∧
    (parameterizedReplaceable ev = true → e.getTagContent (str "d") = ev.getTagContent (str "d")) ∧
    ev.createdAt < e.createdAt

theorem Wrote.settled {a a' : App rl} {old new : DocID} (w : Wrote a a' (.event ev) old new) :
    a'.Settled ev :=
  Or.inl ⟨new, ev, (w.mem _).mpr (Or.inl rfl), rfl⟩

theorem settled_of_known (a : App rl) (h : a.findEventById ev.id ≠ 0) : a.Settled ev := by
  rcases a.findEventById_spec ev.id with ⟨hz, _⟩ | ⟨e, he, hid⟩
  · exact absurd hz h
  · exact Or.inl ⟨_, e, he, hid⟩

/-- Nothing is replaced when what is stored is newer. -/
theorem settled_of_newer (a : App rl) (h : a.docToReplace ev = none) : a.Settled ev := by
  rcases a.docToReplace_spec ev with ⟨_, i, e, he, hr, hr', hk, ht⟩ | ⟨hd, _⟩ | ⟨i, e, hd, _⟩
  · simp only [Event.replaceKey, AuthorKindTagKey.mk.injEq] at hk
    obtain ⟨ha, hkind, htag⟩ := hk
    refine Or.inr ⟨i, e, he, hr, ha, hkind, fun hp => ?_, ht⟩
    have hp' : parameterizedReplaceable e = true := by
      simpa [parameterizedReplaceable, hkind] using hp
    simpa [hp, hp'] using htag
  · cases hd.symm.trans h
  · cases hd.symm.trans h

/-- What keeps an event out is its id, or its name. -/
theorem taken_settled {a : App rl} {ev : Event} {old : DocID} (hv : a.Valid)
    (hd : a.docToReplace ev = some old) (hn : a.NameFree ev)
    (ht : Taken (uniqueKeys rl.ext) a.records (.event ev) old) : a.Settled ev := by
  obtain ⟨k, hk, ⟨i, d⟩, hr, hne, hk'⟩ := ht
  cases k with
  | ids x =>
    obtain ⟨_, he, rfl⟩ := holds_id hk
    cases he
    obtain ⟨e, rfl, hid⟩ := holds_id hk'
    exact Or.inl ⟨i, e, hr, hid⟩
  | replaceable key =>
    -- the key's row is that of the document to replace
    obtain ⟨_, he, hrep, rfl⟩ := holds_replaceable.mp hk
    cases he
    obtain ⟨e, rfl, hrep', hkey⟩ := holds_replaceable.mp hk'
    rcases a.docToReplace_spec ev with ⟨hd', _⟩ | ⟨_, hno⟩ | ⟨j, e', hd', he', hr', _, hkey', _⟩
    · cases hd'.symm.trans hd
    · exact absurd hkey.symm (hno hrep i e hr hrep')
    · cases hd'.symm.trans hd
      exact absurd (hv.unique _ hr _ he' _ hk' (holds_replaceable.mpr ⟨e', rfl, hr', hkey'.symm⟩))
        hne
  | attachments x => simp [uniqueKeys] at hk
  | nip05 name => exact absurd (hn old hd name (holds_nip05.mp hk) _ hr (holds_nip05.mp hk')) hne

/-- Deletion requests are kept out by their ids alone. -/
theorem taken_deletion {a : App rl} {ev : Event} {old : DocID} (hk : ev.kind = Kind.eventDeletion)
    (ht : Taken (uniqueKeys rl.ext) a.records (.event ev) old) : a.Settled ev :=
  Or.inl (taken_plain (not_replaceable_deletion hk) ht)

end App

namespace Session

/-- What an EVENT message is handled as. -/
theorem handle_event (s : Session rl) (conn : Nat) (c : Circumstance)
    (h : Carries rl f (str "EVENT") m) :
    ∃ o msg, (∀ r ∈ o, ∃ text, r = .notice text) ∧ msg.item 1 = m ∧
      (s.handle conn f c).1 = { s with out := s.out ++ o }.onEvent c conn msg := by
  obtain ⟨payload, msg, rfl, hmsg, hcmd, rfl⟩ := h
  by_cases hlong : payload.length > rl.options.maxMessageSize
  · refine ⟨[.notice (str "Text message is too long")], msg, by simp, rfl, ?_⟩
    simp [handle, processMessage, hlong, hmsg, hcmd, sendNotice, send]
  · refine ⟨[], msg, by simp, rfl, ?_⟩
    simp [handle, processMessage, hlong, hmsg, hcmd]

/-- A deletion request that found nothing stored to delete: nothing has changed. -/
def DeletesNothing (a a' : App rl) (mem : Memory) (ev : Event) : Prop :=
  ev.kind = Kind.eventDeletion ∧ (∀ i e, (i, .event e) ∈ a.records → e.id ≠ deletionTarget mem ev) ∧
  a'.storage = a.storage

/-- How the end of `on_event_generic` leaves an event, where it is not an error. -/
theorem store_truthful (s : Session rl) (hv : s.app.Valid) (mem : Memory) (conn : Nat)
    (id : Str) (ev : Event) (hname : s.app.NameFree ev) :
    (s.store mem conn false id ev (publishVerified mem conn) = .error .duplicateKey →
      s.app.Settled ev) ∧
    ∀ s', s.store mem conn false id ev (publishVerified mem conn) = .ok s' →
      s'.app.Settled ev ∨ DeletesNothing s.app s'.app mem ev := by
  unfold store
  split
  · rename_i hk
    simp only [Bool.false_eq_true, ↓reduceIte]
    rcases s.eventDeletion_spec hv mem conn ev with
      ⟨hno, he⟩ | ⟨_, _, _, _, _, he⟩ | ⟨i, e, hmem, hid, hauth, ⟨he, ht⟩ | ⟨a, new, he, w, hpub⟩⟩
    · rw [he]
      refine ⟨fun h => (nomatch h), fun s' h => Or.inr ?_⟩
      cases h
      exact ⟨hk, hno, rfl⟩
    · rw [he]
      exact ⟨fun h => (nomatch h), fun s' h => (nomatch h)⟩
    · rw [he]
      exact ⟨fun _ => App.taken_deletion hk ht, fun s' h => (nomatch h)⟩
    · rw [he]
      refine ⟨fun h => (nomatch h), fun s' h => Or.inl ?_⟩
      cases h
      exact w.settled
  · unfold publishVerified
    split
    · rename_i a hpub
      refine ⟨fun h => (nomatch h), fun s' h => Or.inl ?_⟩
      cases h
      rcases App.publish_spec hpub with ⟨hd, rfl⟩ | ⟨old, new, hd, w, -⟩
      · exact s.app.settled_of_newer hd
      · exact w.settled
    · rename_i e hpub
      obtain ⟨-, old, hd, ht⟩ := App.publish_error hpub
      exact ⟨fun _ => App.taken_settled hv hd hname ht, fun s' h => (nomatch h)⟩

/-- Where `on_event` answers with true, the event is settled. -/
theorem onEvent_truthful (s : Session rl) (hv : s.app.Valid) (c : Circumstance) (conn : Nat)
    (msg : Structured) (hparsed : Event.fromStructured rl.ext c.mem.event (msg.item 1) = .ok ev)
    (hne : ¬ ev.ephemeral) (hname : s.app.NameFree ev)
    (hout : ∀ r ∈ s.out, ∃ text, r = .notice text) {id text : Str}
    (hok : Reply.ok id true text ∈ (s.onEvent c conn msg).out) :
    (s.onEvent c conn msg).app.Settled ev ∨
    DeletesNothing s.app (s.onEvent c conn msg).app c.mem ev := by
  unfold onEvent at hok ⊢
  have h := s.onEventGeneric_outcome c conn (msg.item 1) (publishVerified c.mem conn) false
  generalize s.onEventGeneric c conn (msg.item 1) (publishVerified c.mem conn) false = s' at h hok ⊢
  have before : ¬ Reply.ok id true text ∈ s.out := fun h => by
    obtain ⟨t, ht⟩ := hout _ h
    cases ht
  -- the event handled is the one parsed, up to the mark of trust
  have marked {id : Str} {ev' : Event} (p : Passed s c (msg.item 1) false id ev') :
      ev' = ev ∨ ev' = { ev with trusted := true } := by
    obtain ⟨e, he, rfl⟩ := p.parsed
    cases hparsed.symm.trans he
    rcases s.trust_cases ev with ht | ⟨_, _, ht⟩
    · exact Or.inl ht
    · exact Or.inr ht
  have free {id : Str} {ev' : Event} {s₁ : Session rl} (p : Passed s c (msg.item 1) false id ev')
      (q : Quiet s s₁) :
      s₁.app.NameFree ev' := by
    unfold App.NameFree
    rw [q.app.docToReplace, q.app.records]
    rcases marked p with rfl | rfl <;> exact hname
  cases h with
  | rejected id' text' quiet out =>
    rw [out] at hok
    simp [before] at hok
  | known id' ev' parsed special there =>
    cases hparsed.symm.trans parsed
    exact Or.inl (s.app.settled_of_known there)
  | broadcast id' ev' s₁ passed kind special quiet =>
    have hk : ev'.kind = ev.kind := by rcases marked passed with rfl | rfl <;> rfl
    rw [hk] at kind
    exact absurd kind hne
  | refused id' ev' s₁ e passed letIn quiet out threw =>
    have hsame : (s₁.caught id' e).app = s₁.app := by cases e <;> rfl
    have hdup : e = .duplicateKey := by
      cases e with
      | duplicateKey => rfl
      | _ => simp [caught, sendError, send, out, before] at hok
    subst hdup
    have hsettled :=
      (s₁.store_truthful (quiet.app.valid hv) c.mem conn id' ev' (free passed quiet)).1 threw
    rw [hsame]
    rcases marked passed with rfl | rfl <;> exact Or.inl hsettled
  | stored id' ev' s₁ passed letIn quiet out done =>
    have hstorage := quiet.app.storage
    have hrecords := quiet.app.records
    rcases (s₁.store_truthful (quiet.app.valid hv) c.mem conn id' ev'
      (free passed quiet)).2 s' done with
      hsettled | ⟨hk, hno, hs⟩
    · rcases marked passed with rfl | rfl <;> exact Or.inl hsettled
    · rw [hrecords] at hno
      rcases marked passed with rfl | rfl <;> exact Or.inr ⟨hk, hno, hs.trans hstorage⟩

end Session

/-- In every reachable state, where an EVENT message with an event to be stored is
answered with true and no one else has the event's NIP-05 name, the event or a newer
one in its place is stored, or it asked to delete what is not there. -/
theorem Server.positive_ok_truthful (inputs : List Input) (hp : (run rl inputs).peers conn = some p)
    (hc : Carries rl f (str "EVENT") m)
    (hparsed : Event.fromStructured rl.ext c.mem.event m = .ok ev) (hne : ¬ ev.ephemeral)
    (hname : (run rl inputs).app.NameFree ev) {id text : Str}
    (hok : Reply.ok id true text ∈ (((run rl inputs).session p).handle conn f c).1.out) :
    ((run rl inputs).step (.frame conn f c)).app.Settled ev ∨
    Session.DeletesNothing (run rl inputs).app ((run rl inputs).step (.frame conn f c)).app
      c.mem ev := by
  have happ := (run rl inputs).step_app hp f c
  obtain ⟨o, msg, ho, rfl, hhandle⟩ := ((run rl inputs).session p).handle_event conn c hc
  rw [happ]
  rw [hhandle] at hok ⊢
  refine Session.onEvent_truthful _ (run_regular inputs).valid c conn msg hparsed hne hname ?_ hok
  simpa [session] using ho

namespace Server

def oneEventRelay (ev : Event) : Relay :=
  sampleRelay {} [(noteText, note), (noteDeletionText, noteDeletion)]
    [ev.command "EVENT" ev.id.toHex]

def eventFrame (ev : Event) : Frame := .text (jsonText (ev.command "EVENT" ev.id.toHex))

/-- A request to delete what is not there is answered with true, and not stored. -/
theorem idle_deletion_acknowledged : ¬ noteDeletion.ephemeral ∧
    (.ok noteDeletion.id.toHex true [] ∈
      (((run (oneEventRelay noteDeletion) [arrival]).session newPeer).handle 0
      (eventFrame noteDeletion) { mem := .zeros, now := 0 }).1.out) ∧
    ¬ ((run (oneEventRelay noteDeletion) [arrival]).step
      (.frame 0 (eventFrame noteDeletion) { mem := .zeros, now := 0 })).app.Settled
        noteDeletion := by
  have hnone : ((run (oneEventRelay noteDeletion) [arrival]).step
      (.frame 0 (eventFrame noteDeletion) { mem := .zeros, now := 0 })).app.records = [] := by
        decide +kernel
  refine ⟨fun h => absurd h.1 (by decide), by decide +kernel, fun h => ?_⟩
  unfold App.Settled at h
  rw [hnone] at h
  rcases h with ⟨i, e, he, -⟩ | ⟨i, e, he, -⟩ <;> cases he

/-- A note that is answered with true is stored. -/
theorem note_acknowledged : ((run (oneEventRelay note) [arrival]).step
      (.frame 0 (eventFrame note) { mem := .zeros, now := 0 })).app.Settled note ∨
    Session.DeletesNothing (run (oneEventRelay note) [arrival]).app
      ((run (oneEventRelay note) [arrival]).step
      (.frame 0 (eventFrame note) { mem := .zeros, now := 0 })).app .zeros note :=
  positive_ok_truthful [arrival] (p := newPeer) rfl (carries_command note "EVENT" note.id.toHex)
    (ok_of_toOption (by decide +kernel)) (fun h => absurd h.1 (by decide))
    (by
      have hno : indexNip05Fn (oneEventRelay note).ext (.event note) = [] := by decide +kernel
      intro old _ name hname
      rw [hno] at hname
      cases hname)
    (by decide +kernel : .ok note.id.toHex true [] ∈
      (((run (oneEventRelay note) [arrival]).session newPeer).handle 0
      (eventFrame note) { mem := .zeros, now := 0 }).1.out)

end Server

end NostrServer
