import NostrServer.Effects
import NostrServer.KarmaLedger

namespace NostrServer
open Docdb

variable {rl : Relay}

/-- The event makes its author a home user. -/
def Event.Settles (ev : Event) : Prop :=
  ev.refLevel = 0 ∧ ev.kind < Kind.encryptedDirectMessages

def settles (d : EventOrAttachment) (pk : Pubkey) : Prop :=
  ∃ ev, d = .event ev ∧ ev.Settles ∧ ev.author = pk

theorem switchKind_isLocal (erase : Bool) (mem : Nat → Pubkey) (ev : Event) (t : KarmaTable)
    (pk : Pubkey) : (switchKind erase mem ev t).isLocal pk = t.isLocal pk := by
  unfold switchKind
  cases counterOf ev with
  | none => rfl
  | some c => exact isLocal_counted erase c _ t pk

/-- Only insertion makes anyone local, and nothing takes it back. -/
theorem whiteList_isLocal (erase : Bool) (mem : Nat → Pubkey) (d : EventOrAttachment)
    (t : KarmaTable) (pk : Pubkey) : (whiteListIndexFn erase mem d t).isLocal pk = true ↔
      t.isLocal pk = true ∨ (erase = false ∧ settles d pk) := by
  cases d with
  | attachment att => simp [whiteListIndexFn, settles]
  | event ev =>
    have hsettles : settles (.event ev) pk ↔ ev.Settles ∧ ev.author = pk := by simp [settles]
    rw [hsettles]
    unfold whiteListIndexFn Event.Settles
    by_cases hr : ev.refLevel = 0
    · by_cases hk : ev.kind < Kind.encryptedDirectMessages
      · cases erase with
        | true => simp [hr, hk, switchKind_isLocal]
        | false =>
          have hflip : pk = ev.author ↔ ev.author = pk := eq_comm
          simp [hr, hk, switchKind_isLocal, isLocal_makeLocal, hflip]
      · simp only [hr, hk, ne_eq, not_true_eq_false, ↓reduceIte, and_false, false_and, or_false]
        split <;> simp [switchKind_isLocal]
    · simp [hr]

theorem erased_nil (mem : Nat → Pubkey) (ev : Event) : switchKind true mem ev [] = [] := by
  unfold switchKind updateCounter
  cases counterOf ev with
  | none => rfl
  | some c =>
    dsimp only
    induction mentioned mem ev with
    | nil => rfl
    | cons pk pks ih => exact ih

/-- A table with no one local in it has no rows before, and gets none. -/
theorem whiteList_empty {erase : Bool} {mem : Nat → Pubkey} {d : EventOrAttachment}
    (h : ∀ pk, (whiteListIndexFn erase mem d []).isLocal pk = false) :
    whiteListIndexFn erase mem d [] = [] := by
  cases d with
  | attachment att => rfl
  | event ev =>
    have hauthor := h ev.author
    have hnone : KarmaTable.isLocal [] ev.author = false := rfl
    unfold whiteListIndexFn at hauthor ⊢
    by_cases hr : ev.refLevel = 0
    · by_cases hk : ev.kind < Kind.encryptedDirectMessages
      · cases erase with
        | true => simp [hr, hk, erased_nil]
        | false => simp [hr, hk, switchKind_isLocal, isLocal_makeLocal] at hauthor
      · simp [hr, hk, hnone]
    · simp [hr]

theorem put_ne_nil (t : KarmaTable) (pk : Pubkey) (k : Karma) : t.put pk k ≠ [] :=
  List.cons_ne_nil _ _

theorem countTag_ne_nil {erase : Bool} {c : Counter} {t : KarmaTable} (h : t ≠ []) (pk : Pubkey) :
    countTag erase c t pk ≠ [] := by
  unfold countTag
  split
  · exact put_ne_nil _ _ _
  · split
    · exact h
    · exact put_ne_nil _ _ _

theorem switchKind_ne_nil {erase : Bool} {mem : Nat → Pubkey} {ev : Event} {t : KarmaTable}
    (h : t ≠ []) : switchKind erase mem ev t ≠ [] := by
  unfold switchKind updateCounter
  cases counterOf ev with
  | none => exact h
  | some c =>
    dsimp only
    induction mentioned mem ev generalizing t with
    | nil => exact h
    | cons pk pks ih => exact ih (countTag_ne_nil h pk)

/-- Rows are never taken out. -/
theorem whiteList_ne_nil {erase : Bool} {mem : Nat → Pubkey} {d : EventOrAttachment}
    {t : KarmaTable} (h : t ≠ []) : whiteListIndexFn erase mem d t ≠ [] := by
  cases d with
  | attachment att => exact h
  | event ev =>
    have hlocal : makeLocal t ev.author ≠ [] := by
      unfold makeLocal
      split
      · exact put_ne_nil _ _ _
      · split
        · exact h
        · exact put_ne_nil _ _ _
    unfold whiteListIndexFn
    dsimp only
    by_cases hr : ev.refLevel = 0
    · by_cases hk : ev.kind < Kind.encryptedDirectMessages
      · cases erase with
        | true => simpa [hr, hk] using switchKind_ne_nil h
        | false => simpa [hr, hk] using switchKind_ne_nil hlocal
      · by_cases hl : t.isLocal ev.author = true
        · simpa [hr, hk, hl] using switchKind_ne_nil h
        · simpa [hr, hk, hl] using h
    · simpa [hr] using h

def KarmaTable.Inhabited (t : KarmaTable) : Prop := t ≠ [] → ∃ pk, t.isLocal pk = true

theorem whiteList_inhabited {erase : Bool} {mem : Nat → Pubkey} {d : EventOrAttachment}
    {t : KarmaTable} (h : t.Inhabited) : (whiteListIndexFn erase mem d t).Inhabited := by
  intro hne
  by_cases ht : t = []
  · subst ht
    by_cases hnone : ∀ pk, (whiteListIndexFn erase mem d []).isLocal pk = false
    · exact absurd (whiteList_empty hnone) hne
    · simpa using hnone
  · obtain ⟨pk, hpk⟩ := h ht
    exact ⟨pk, (whiteList_isLocal erase mem d t pk).mpr (Or.inl hpk)⟩

/-- What the aggregator's table goes through when documents that settle `new` come in. -/
structure Settled (t t' : KarmaTable) (new : Pubkey → Prop) : Prop where
  homes : ∀ pk, t'.isLocal pk = true ↔ t.isLocal pk = true ∨ new pk
  inhabited : t.Inhabited → t'.Inhabited
  kept : t ≠ [] → t' ≠ []

theorem Settled.refl (t : KarmaTable) : Settled t t (fun _ => False) :=
  ⟨fun _ => by simp, id, id⟩

theorem Settled.trans {t t' t'' : KarmaTable} (h : Settled t t' new) (h' : Settled t' t'' new') :
    Settled t t'' (fun pk => new pk ∨ new' pk) :=
  ⟨fun pk => by rw [h'.homes, h.homes, or_assoc], fun ht => h'.inhabited (h.inhabited ht),
    fun ht => h'.kept (h.kept ht)⟩

theorem whiteList_settled (erase : Bool) (mem : Nat → Pubkey) (d : EventOrAttachment)
    (t : KarmaTable) :
    Settled t (whiteListIndexFn erase mem d t) (fun pk => erase = false ∧ settles d pk) :=
  ⟨whiteList_isLocal erase mem d t, whiteList_inhabited, whiteList_ne_nil⟩

/-- An update settles its new document's author. -/
theorem karmaUpdate_settled (mem : IndexMemory) (up : Update EventOrAttachment) (t : KarmaTable) :
    Settled t (karmaUpdate mem up t) (fun pk => ∃ d, up.newDoc = some d ∧ settles d pk) := by
  obtain ⟨new, _, old, _⟩ := up
  have hold (d : EventOrAttachment) := whiteList_settled true mem.karmaErase d t
  have hnew (d : EventOrAttachment) (t : KarmaTable) :=
    whiteList_settled false mem.karmaInsert d t
  unfold karmaUpdate
  cases old with
  | none =>
    cases new with
    | none => simpa using Settled.refl t
    | some d => simpa using hnew d t
  | some o =>
    cases new with
    | none => simpa using hold o
    | some d => simpa using (hold o).trans (hnew d _)

structure App.Grown (a a' : App rl) (new : Pubkey → Prop) : Prop where
  settled : Settled a.karma a'.karma new
  flag : a'.emptyDatabase = a.emptyDatabase

namespace App

theorem Grown.refl (a : App rl) : Grown a a (fun _ => False) := ⟨Settled.refl a.karma, rfl⟩

theorem Grown.trans {a a' a'' : App rl} (h : Grown a a' new) (h' : Grown a' a'' new') :
    Grown a a'' (fun pk => new pk ∨ new' pk) :=
  ⟨h.settled.trans h'.settled, h'.flag.trans h.flag⟩

theorem Grown.congr {a a' : App rl} (h : Grown a a' new) (hnew : ∀ pk, new pk ↔ new' pk) :
    Grown a a' new' :=
  ⟨⟨fun pk => by rw [h.settled.homes, hnew], h.settled.inhabited, h.settled.kept⟩, h.flag⟩

theorem put_grown {a a' : App rl} (h : a.put mem d old = some a') : Grown a a' (settles d) ∧
    a'.published = a.published := by
  obtain ⟨p, -, rfl⟩ := Option.map_eq_some_iff.mp h
  refine ⟨⟨?_, rfl⟩, rfl⟩
  have hsettled := karmaUpdate_settled mem ⟨some d, p.1, a.find old, old⟩ a.karma
  simp only [Option.some.injEq, exists_eq_left'] at hsettled
  exact hsettled

theorem erase_grown (a : App rl) (mem : IndexMemory) (i : DocID) :
    Grown a (a.erase mem i) (fun _ => False) := by
  refine ⟨?_, rfl⟩
  have hsettled := karmaUpdate_settled mem ⟨none, 0, a.find i, i⟩ a.karma
  simp only [reduceCtorEq, false_and, exists_false] at hsettled
  exact hsettled

theorem attachment_settles (att : Attachment) (pk : Pubkey) : ¬ settles (.attachment att) pk := by
  rintro ⟨ev, hev, -⟩
  cases hev

theorem publish_grown {a a' : App rl} (h : a.publish mem ev src = .ok a') : a' = a ∨
    (Grown a a' (settles (.event ev)) ∧ a'.published = a.published ++ [(ev, src)]) := by
  unfold publish at h
  split at h
  · cases h
    exact Or.inl rfl
  · split at h
    · cases h
    · rename_i a₁ hp
      obtain ⟨hgrown, hpub⟩ := put_grown hp
      right
      cases h
      split <;> exact ⟨⟨hgrown.settled, hgrown.flag⟩, by simp [publishEvent, hpub]⟩

theorem publishFile_grown {a a' : App rl} (h : a.publishFile mem mem' ev att src = .ok a') :
    a' = a ∨ (Grown a a' (settles (.event ev)) ∧ a'.published = a.published ++ [(ev, src)]) := by
  unfold publishFile at h
  dsimp only at h
  split at h
  · cases h
    exact Or.inl rfl
  · split at h
    · cases h
    · rename_i a₂ hp
      obtain ⟨a₁, hp₁, hp₂⟩ := Option.bind_eq_some_iff.mp hp
      obtain ⟨hgrown, hpub⟩ := put_grown hp₁
      obtain ⟨hgrown', hpub'⟩ := put_grown hp₂
      have hboth : Grown a a₂ (settles (.event ev)) :=
        (hgrown.trans hgrown').congr (fun pk => or_iff_left (attachment_settles att pk))
      right
      cases h
      exact ⟨⟨hboth.settled, hboth.flag⟩, by simp [publishEvent, hpub, hpub']⟩

theorem killAll_grown (mem : IndexMemory) (ks : List ID) (a : App rl) :
    Grown a (ks.foldl (fun a k => a.killAttachment mem k) a) (fun _ => False) ∧
      (ks.foldl (fun a k => a.killAttachment mem k) a).published = a.published := by
  induction ks generalizing a with
  | nil => exact ⟨Grown.refl a, rfl⟩
  | cons k ks ih =>
    obtain ⟨hgrown, hpub⟩ := ih (a.killAttachment mem k)
    have hone : Grown a (a.killAttachment mem k) (fun _ => False) ∧
        (a.killAttachment mem k).published = a.published := by
      unfold killAttachment
      split
      · exact ⟨Grown.refl a, rfl⟩
      · exact ⟨a.erase_grown mem _, rfl⟩
    exact ⟨(hone.1.trans hgrown).congr (by simp), hpub.trans hone.2⟩

/-- Home users are the authors of what was published to settle them, and there are no rows
before the first of them. -/
structure Homed (a : App rl) : Prop where
  homes : ∀ pk, a.isHomeUser pk = true ↔ ∃ p ∈ a.published, p.1.Settles ∧ p.1.author = pk
  inhabited : a.karma.Inhabited

def Flagged (a : App rl) : Prop := a.emptyDatabase = false → a.karma ≠ []

theorem Homed.same {a b : App rl} (h : b.Homed) (hs : a.Same b) : a.Homed := by
  refine ⟨fun pk => ?_, hs.karma ▸ h.inhabited⟩
  rw [isHomeUser, hs.karma, hs.published]
  exact h.homes pk

theorem Homed.grown {a a' : App rl} (h : a.Homed) (hg : Grown a a' (settles (.event ev)))
    (hp : a'.published = a.published ++ [(ev, src)]) : a'.Homed := by
  refine ⟨fun pk => ?_, hg.settled.inhabited h.inhabited⟩
  have hold := h.homes pk
  have hsettles : settles (.event ev) pk ↔ ev.Settles ∧ ev.author = pk := by simp [settles]
  rw [isHomeUser] at hold ⊢
  rw [hg.settled.homes, hold, hp, hsettles]
  simp [or_and_right, exists_or]

theorem Homed.unsettled {a a' : App rl} (h : a.Homed) (hg : Grown a a' (fun _ => False))
    (hp : a'.published = a.published) : a'.Homed := by
  refine ⟨fun pk => ?_, hg.settled.inhabited h.inhabited⟩
  have hold := h.homes pk
  rw [isHomeUser] at hold ⊢
  rw [hg.settled.homes, hold, hp, or_false]

theorem Flagged.grown {a a' : App rl} (h : a.Flagged) (hg : Grown a a' new) : a'.Flagged :=
  fun hf => hg.settled.kept (h (hg.flag ▸ hf))

theorem Flagged.checked {a : App rl} (h : a.Flagged) (k : Pubkey) :
    (a.checkWhitelist k).2.Flagged := by
  intro hf
  have hsame := (a.same_checkWhitelist k).karma
  rw [hsame]
  unfold checkWhitelist at hf
  cases he : a.emptyDatabase with
  | false => exact h he
  | true =>
    by_cases hk : a.karma.isEmpty
    · simp [he, hk] at hf
    · simpa using hk

end App

namespace Session

/-- A batch settles the author of its event at most. -/
theorem commitBatch_grown {mem : Nat → IndexMemory} {event : Event} {ops : List BatchOp}
    {a a' : App rl} (h : commitBatch mem event a ops = some a') :
    (∃ new, App.Grown a a' new ∧ ∀ pk, new pk → settles (.event event) pk) ∧
      a'.published = a.published := by
  induction ops generalizing a with
  | nil =>
    cases h
    exact ⟨⟨_, App.Grown.refl _, fun _ => False.elim⟩, rfl⟩
  | cons op ops ih =>
    cases op with
    | put old =>
      obtain ⟨a₁, hput, hrest⟩ := Option.bind_eq_some_iff.mp h
      obtain ⟨hgrown, hpub⟩ := App.put_grown hput
      obtain ⟨⟨new, hgrown', hnew⟩, hpub'⟩ := ih hrest
      exact ⟨⟨_, hgrown.trans hgrown', fun pk hp => hp.elim id (hnew pk)⟩, hpub'.trans hpub⟩
    | erase i =>
      obtain ⟨⟨new, hgrown, hnew⟩, hpub⟩ := ih h
      exact ⟨⟨_, (a.erase_grown _ i).trans hgrown, fun pk hp => hp.elim False.elim (hnew pk)⟩, hpub⟩

theorem not_settles_deletion {ev : Event} (h : ev.kind = 5) : ¬ ev.Settles := by
  intro hs
  have hlt := hs.2
  rw [h] at hlt
  exact absurd hlt (by decide)

theorem not_settles_ephemeral {ev : Event}
    (h : ev.kind ≥ Kind.ephemeralBegin ∧ ev.kind < Kind.ephemeralEnd) : ¬ ev.Settles := by
  intro hs
  have hge : Kind.ephemeralBegin.toNat ≤ ev.kind.toNat := UInt32.le_iff_toNat_le.mp h.1
  have hlt : ev.kind.toNat < Kind.encryptedDirectMessages.toNat := UInt32.lt_iff_toNat_lt.mp hs.2
  exact absurd (Nat.lt_of_le_of_lt hge hlt) (by decide)

theorem eventDeletion_grown {s s' : Session rl} (h : s.eventDeletion mem self ev = .ok s') :
    (∃ new, App.Grown s.app s'.app new ∧ ∀ pk, new pk → settles (.event ev) pk) ∧
      (s'.app.published = s.app.published ∨
        s'.app.published = s.app.published ++ [(ev, some self)]) := by
  unfold eventDeletion at h
  dsimp only at h
  split at h
  · cases h
  · split at h
    · cases h
    · rename_i ops _ a ha
      obtain ⟨⟨new, hgrown, hnew⟩, hpub⟩ := commitBatch_grown ha
      cases h
      simp only [send]
      split
      · exact ⟨⟨new, hgrown, hnew⟩, Or.inl hpub⟩
      · exact ⟨⟨new, ⟨hgrown.settled, hgrown.flag⟩, hnew⟩,
          Or.inr (by simp [App.publishEvent, hpub])⟩

/-- A deletion settles nobody. -/
theorem eventDeletion_homed {s s' : Session rl} (hs : s.app.Homed) (hk : ev.kind = 5)
    (h : s.eventDeletion mem self ev = .ok s') : s'.app.Homed := by
  obtain ⟨⟨new, hgrown, hnew⟩, hpub⟩ := eventDeletion_grown h
  have hnone (pk : Pubkey) : ¬ settles (.event ev) pk := by
    simp [settles, not_settles_deletion hk]
  have hno (pk : Pubkey) : ¬ new pk := fun hp => hnone pk (hnew pk hp)
  rcases hpub with hpub | hpub
  · exact hs.unsettled (hgrown.congr (fun pk => iff_of_false (hno pk) id)) hpub
  · exact hs.grown (hgrown.congr (fun pk => iff_of_false (hno pk) (hnone pk))) hpub

/-- What the way an event is stored keeps of the application. -/
theorem publishVerified_keeps {P : App rl → Prop} {s s' : Session rl} {id : Str} (hs : P s.app)
    (hgrown : ∀ {a}, App.Grown s.app a (settles (.event ev)) →
      a.published = s.app.published ++ [(ev, some self)] → P a)
    (h : publishVerified mem self id ev s = .ok s') : P s'.app := by
  unfold publishVerified at h
  split at h
  · rename_i a hpub
    cases h
    rcases App.publish_grown hpub with rfl | ⟨hg, hp⟩
    · exact hs
    · exact hgrown hg hp
  · cases h

theorem awaitFile_app {s s' : Session rl} {id : Str} (h : awaitFile id ev s = .ok s') :
    s'.app = s.app := by
  unfold awaitFile at h
  split at h <;> cases h <;> rfl

theorem Outcome.homed {s s' : Session rl} (hs : s.app.Homed)
    (h : Outcome s c self m onVerify noSpecialEvents s')
    (hverified : ∀ s s' id ev, s.app.Homed → onVerify id ev s = .ok s' → s'.app.Homed) :
    s'.app.Homed := by
  have caught {s₁ : Session rl} (quiet : Quiet s s₁) (id : Str) (e : Exn) :
      (s₁.caught id e).app.Homed := hs.same (quiet_caught quiet id e).app
  cases h with
  | rejected id text quiet out => exact hs.same quiet.app
  | known id ev parsed special there => exact hs
  | broadcast id ev s₁ passed kind special quiet =>
    have hs₁ : s₁.app.Homed := hs.same quiet.app
    refine ⟨fun pk => ?_, hs₁.inhabited⟩
    have hold := hs₁.homes pk
    simpa [send, App.publishEvent, App.isHomeUser, or_and_right, exists_or,
      not_settles_ephemeral kind] using hold
  | refused id ev s₁ e passed letIn quiet out threw => exact caught quiet id e
  | stored id ev s₁ passed letIn quiet out done =>
    have hs₁ : s₁.app.Homed := hs.same quiet.app
    unfold store at done
    split at done
    · rename_i hkind
      split at done
      · cases done
      · exact eventDeletion_homed hs₁ hkind done
    · exact hverified _ _ _ _ hs₁ done

/-- The flag is looked after wherever an event is handled. -/
theorem flagged_exits {c : Circumstance} {conn : Nat}
    {onVerify : Str → Event → Session rl → Except Exn (Session rl)}
    (h : ∀ s s' id ev, s.app.Flagged → onVerify id ev s = .ok s' → s'.app.Flagged) :
    Exits (fun s : Session rl => s.app.Flagged) (fun s => s.app.Flagged) c conn onVerify where
  limited s hs := (s.limited_quiet c.now).2.1 ▸ hs
  checked s ev hs := by
    unfold whitelistCheck
    split
    · dsimp only
      have hchecked := hs.checked ev.author
      repeat' split
      all_goals exact hchecked
    · exact hs
  published s ev hs := hs
  sent s id ok text hs := hs
  deleted s s' ev hs hd := by
    obtain ⟨⟨new, hgrown, -⟩, -⟩ := eventDeletion_grown hd
    exact hs.grown hgrown
  handled := h

theorem onReq_app {s s' : Session rl} (h : s.onReq c msg = some s') : s'.app = s.app := by
  unfold onReq at h
  split at h
  · split at h <;> cases h <;> rfl
  · cases h

theorem onClose_app {s s' : Session rl} (h : s.onClose msg = some s') : s'.app = s.app := by
  obtain ⟨_, -, rfl⟩ := Option.map_eq_some_iff.mp h
  rfl

theorem processAuth_app {s s' : Session rl} (h : s.processAuth c msg = some s') :
    s'.app = s.app := by
  obtain ⟨_, -, rfl⟩ := Option.map_eq_some_iff.mp h
  split <;> rfl

/-- What a message may make of the application, for what every way of storing keeps. -/
theorem processMessage_homed (s : Session rl) (h : s.app.Homed ∧ s.app.Flagged) (c : Circumstance)
    (conn : Nat) (payload : Str) : (s.processMessage c conn payload).app.Homed ∧
      (s.processMessage c conn payload).app.Flagged := by
  have hd := s.processMessage_dispatched c conn payload
  generalize s.processMessage c conn payload = s' at hd ⊢
  cases hd with
  | event msg o notices named =>
    have hkeeps (s s' : Session rl) (id : Str) (ev : Event) (hs : s.app.Flagged)
        (hdone : publishVerified c.mem conn id ev s = .ok s') : s'.app.Flagged :=
      publishVerified_keeps hs (fun hg _ => hs.grown hg) hdone
    refine ⟨?_, (flagged_exits hkeeps).onEventGeneric (s := { s with out := s.out ++ o }) h.2 _ _⟩
    have hout := onEventGeneric_outcome { s with out := s.out ++ o } c conn (msg.item 1)
      (publishVerified c.mem conn) false
    exact hout.homed (s := { s with out := s.out ++ o }) h.1
      (fun _ _ _ _ hs hdone => publishVerified_keeps hs hs.grown hdone)
  | file msg o notices named =>
    refine ⟨?_, (flagged_exits (fun _ _ _ _ hs hdone => awaitFile_app hdone ▸ hs)).onEventGeneric
      (s := { s with out := s.out ++ o }) h.2 _ _⟩
    have hout := onEventGeneric_outcome { s with out := s.out ++ o } c conn (msg.item 1)
      awaitFile true
    exact hout.homed (s := { s with out := s.out ++ o }) h.1
      (fun _ _ _ _ hs hdone => awaitFile_app hdone ▸ hs)
  | req msg o notices named done => exact onReq_app done ▸ h
  | close msg o notices named done => exact onClose_app done ▸ h
  | auth msg o notices named done => exact processAuth_app done ▸ h
  | other app peer => exact app ▸ h

theorem processBinaryMessage_homed (s : Session rl) (h : s.app.Homed ∧ s.app.Flagged) (mem : Memory)
    (data : Str) : (s.processBinaryMessage mem data).1.app.Homed ∧
      (s.processBinaryMessage mem data).1.app.Flagged := by
  unfold processBinaryMessage
  split
  · exact h
  dsimp only
  split
  · exact h
  split
  · exact h
  split
  · rename_i a hdone
    have hboth : a = s.app ∨ ∃ ev src, App.Grown s.app a (settles (.event ev)) ∧
        a.published = s.app.published ++ [(ev, src)] := by
      split at hdone
      · exact (App.publish_grown hdone).imp_right (fun h => ⟨_, _, h⟩)
      · exact (App.publishFile_grown hdone).imp_right (fun h => ⟨_, _, h⟩)
    rcases hboth with rfl | ⟨ev, src, hgrown, hpub⟩
    · exact h
    · exact ⟨h.1.grown hgrown hpub, h.2.grown hgrown⟩
  · exact h

end Session

namespace Server

theorem run_homed (inputs : List Input) :
    (run rl inputs).app.Homed ∧ (run rl inputs).app.Flagged := by
  refine Machine.run_always (P := fun sv : Server rl => sv.app.Homed ∧ sv.app.Flagged) ?_ ?_ inputs
  · refine ⟨⟨fun pk => ?_, fun h => absurd rfl h⟩, fun h => ?_⟩
    · simp [machine, start, App.isHomeUser, KarmaTable.isLocal]
    · cases h
  · intro sv x h
    cases x with
    | connect conn authPubkey nonce =>
      dsimp only [machine, step]
      split <;> exact h
    | gc mem =>
      obtain ⟨hgrown, hpub⟩ := App.killAll_grown mem
        (App.gcScan (sv.app.attachments.mergeSort App.rowLe) []).reverse sv.app
      exact ⟨h.1.unsettled hgrown hpub, h.2.grown hgrown⟩
    | frame conn f c =>
      cases hp : sv.peers conn with
      | none => simpa [machine, step, hp] using h
      | some p =>
        dsimp only [machine]
        rw [sv.step_app hp]
        cases f with
        | text payload => exact (sv.session p).processMessage_homed h c conn payload
        | binary payload => exact (sv.session p).processBinaryMessage_homed h c.mem payload
        | connClose => exact h
        | largeFrame => exact h
        | other => exact h

/-- In every reachable state the home users are the authors of what was published to settle
them, whether it is still stored or not; and the whitelist lets in everyone until there is
one, then those with a positive karma. -/
theorem home_users_exact (inputs : List Input) :
    (∀ pk, (run rl inputs).app.isHomeUser pk = true ↔
      ∃ p ∈ (run rl inputs).app.published, p.1.Settles ∧ p.1.author = pk) ∧
    ∀ k, ((run rl inputs).app.checkWhitelist k).1 = true ↔
      (∀ p ∈ (run rl inputs).app.published, ¬ p.1.Settles) ∨
        0 < (run rl inputs).app.getKarma k := by
  obtain ⟨hhomed, hflag⟩ : (run rl inputs).app.Homed ∧ (run rl inputs).app.Flagged :=
    run_homed inputs
  generalize (run rl inputs).app = a at hhomed hflag
  refine ⟨hhomed.homes, fun k => ?_⟩
  have hempty : a.karma = [] ↔ ∀ p ∈ a.published, ¬ p.1.Settles := by
    constructor
    · intro hk p hp hs
      have hhome := (hhomed.homes p.1.author).mpr ⟨p, hp, hs, rfl⟩
      simp [App.isHomeUser, hk, KarmaTable.isLocal] at hhome
    · intro hnone
      apply Classical.not_not.mp
      intro hk
      obtain ⟨pk, hpk⟩ := hhomed.inhabited hk
      obtain ⟨p, hp, hs, -⟩ := (hhomed.homes pk).mp hpk
      exact hnone p hp hs
  have hscore : (a.karma.lookup k).any (fun r => r.getScore > 0) = true ↔ 0 < a.getKarma k := by
    unfold App.getKarma
    cases a.karma.lookup k with
    | none => simp
    | some r => simp
  rw [← hempty, ← hscore]
  unfold App.checkWhitelist
  cases hf : a.emptyDatabase with
  | false => simp [hflag hf, hf]
  | true =>
    by_cases hk : a.karma = []
    · simp [hk]
    · simp [hk]

end Server

end NostrServer
