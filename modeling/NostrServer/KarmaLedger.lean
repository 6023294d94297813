import Mathlib.Data.List.Count
import NostrServer.Karma

namespace NostrServer
open Docdb

theorem value_countTag (erase : Bool) (c d : Counter) (t : KarmaTable) (pk pk' : Pubkey)
    (h : erase = true → t.value pk c ≠ 0) :
    (countTag erase c t pk).value pk' d =
      if pk' = pk ∧ d = c then (if erase then t.value pk c - 1 else t.value pk c + 1)
        else t.value pk' d := by
  cases hl : t.lookup pk with
  | some k =>
    simp only [countTag, hl, KarmaTable.value, KarmaTable.lookup_put]
    by_cases hp : pk' = pk
    · subst hp
      simp [hl, Karma.get_set]
    · simp [hp]
  | none =>
    cases erase with
    | true => simp [KarmaTable.value, hl] at h
    | false =>
      simp only [countTag, hl, KarmaTable.value, KarmaTable.lookup_put,
        Bool.false_eq_true, ↓reduceIte]
      by_cases hp : pk' = pk
      · subst hp
        simp only [↓reduceIte, Karma.get_set, true_and, hl]
        cases d <;> simp [Karma.get]
      · simp [hp]

/-- Insertion adds one for every mention, as long as the counters hold it. -/
theorem value_insert (c : Counter) (pks : List Pubkey) (t : KarmaTable)
    (h : ∀ pk, (t.value pk c).toNat + pks.count pk < 2 ^ 32) (pk : Pubkey) (d : Counter) :
    ((pks.foldl (countTag false c) t).value pk d).toNat =
      (t.value pk d).toNat + (pks.map (fun p => (c, p))).count (d, pk) := by
  induction pks generalizing t with
  | nil => simp
  | cons p pks ih =>
    have hv (q : Pubkey) (e : Counter) := value_countTag false c e t p q (by simp)
    simp only [Bool.false_eq_true, ↓reduceIte] at hv
    have hp := h p
    simp only [List.count_cons_self] at hp
    have hone : (t.value p c + 1).toNat = (t.value p c).toNat + 1 := by
      simp only [UInt32.toNat_add, UInt32.toNat_one]
      omega
    have hstep : ∀ q, ((countTag false c t p).value q c).toNat + pks.count q < 2 ^ 32 := by
      intro q
      have hq := h q
      rw [hv]
      by_cases he : q = p
      · subst q
        simp only [and_self, ↓reduceIte, hone]
        omega
      · simp only [List.count_cons, he, false_and, ↓reduceIte] at hq ⊢
        omega
    rw [List.foldl_cons, ih _ hstep, hv, List.map_cons, List.count_cons]
    by_cases he : pk = p ∧ d = c
    · obtain ⟨rfl, rfl⟩ := he
      simp only [and_self, ↓reduceIte, hone, beq_self_eq_true]
      omega
    · have hb : ((c, p) == (d, pk)) = false := by
        simp only [beq_eq_false_iff_ne, ne_eq, Prod.mk.injEq, not_and]
        rintro rfl rfl
        exact he ⟨rfl, rfl⟩
      simp [he, hb]

/-- The values `--` is applied to while one document is erased. -/
def decremented (c : Counter) (t : KarmaTable) : List Pubkey → List UInt32
  | [] => []
  | pk :: pks => ((t.lookup pk).map (·.get c)).toList ++ decremented c (countTag true c t pk) pks

/-- Erasure takes off one for every mention that was counted. -/
theorem value_erase (c : Counter) (pks : List Pubkey) (t : KarmaTable)
    (h : ∀ pk, pks.count pk ≤ (t.value pk c).toNat) :
    (∀ pk d, ((pks.foldl (countTag true c) t).value pk d).toNat +
      (pks.map (fun p => (c, p))).count (d, pk) = (t.value pk d).toNat) ∧
    ∀ v ∈ decremented c t pks, v ≠ 0 := by
  induction pks generalizing t with
  | nil => simp [decremented]
  | cons p pks ih =>
    have hp := h p
    simp only [List.count_cons_self] at hp
    have hpos : t.value p c ≠ 0 := by
      intro h0
      simp [h0] at hp
    have hv (q : Pubkey) (e : Counter) := value_countTag true c e t p q (fun _ => hpos)
    simp only [↓reduceIte] at hv
    have hone : (t.value p c - 1).toNat + 1 = (t.value p c).toNat := by
      rw [UInt32.toNat_sub_of_le _ _ (by rw [UInt32.le_iff_toNat_le]; simp; omega)]
      simp
      omega
    have hstep : ∀ q, pks.count q ≤ ((countTag true c t p).value q c).toNat := by
      intro q
      have hq := h q
      rw [hv]
      by_cases he : q = p
      · subst q
        simp only [and_self, ↓reduceIte]
        omega
      · simp only [he, false_and, ↓reduceIte]
        exact Nat.le_trans (List.count_le_count_cons) hq
    obtain ⟨heq, hnz⟩ := ih _ hstep
    refine ⟨fun pk d => ?_, ?_⟩
    · have hpd := heq pk d
      rw [hv] at hpd
      rw [List.foldl_cons, List.map_cons, List.count_cons]
      by_cases he : pk = p ∧ d = c
      · obtain ⟨rfl, rfl⟩ := he
        simp only [and_self, ↓reduceIte, beq_self_eq_true] at hpd ⊢
        omega
      · have hb : ((c, p) == (d, pk)) = false := by
          simp only [beq_eq_false_iff_ne, ne_eq, Prod.mk.injEq, not_and]
          rintro rfl rfl
          exact he ⟨rfl, rfl⟩
        simpa [he, hb] using hpd
    · intro v hm
      rcases List.mem_append.mp hm with hm | hm
      · simp only [Option.mem_toList, Option.map_eq_some_iff] at hm
        obtain ⟨k, hk, rfl⟩ := hm
        simpa [KarmaTable.value, hk] using hpos
      · exact hnz v hm

theorem isLocal_put (t : KarmaTable) (pk pk' : Pubkey) (k : Karma) :
    (t.put pk k).isLocal pk' = if pk' = pk then k.isLocal else t.isLocal pk' := by
  simp only [KarmaTable.isLocal, KarmaTable.lookup_put]
  split <;> simp

theorem isLocal_counted (erase : Bool) (c : Counter) (pks : List Pubkey) (t : KarmaTable)
    (pk : Pubkey) :
    (pks.foldl (countTag erase c) t).isLocal pk = t.isLocal pk := by
  induction pks generalizing t with
  | nil => rfl
  | cons p pks ih =>
    rw [List.foldl_cons, ih]
    cases hl : t.lookup p with
    | some k =>
      simp only [countTag, hl, isLocal_put, Karma.isLocal_set]
      by_cases hp : pk = p
      · simp [hp, KarmaTable.isLocal, hl]
      · simp [hp]
    | none =>
      cases erase with
      | true => simp [countTag, hl]
      | false =>
        simp only [countTag, hl, isLocal_put, Karma.isLocal_set, Bool.false_eq_true, ↓reduceIte]
        by_cases hp : pk = p
        · simp [hp, KarmaTable.isLocal, hl]
        · simp [hp]

theorem value_makeLocal (t : KarmaTable) (a pk : Pubkey) (c : Counter) :
    (makeLocal t a).value pk c = t.value pk c := by
  unfold makeLocal
  split
  · rename_i hl
    simp only [KarmaTable.value, KarmaTable.lookup_put]
    by_cases hp : pk = a
    · subst pk
      simp only [↓reduceIte, hl]
      cases c <;> rfl
    · simp [hp]
  · rename_i k hl
    split
    · rfl
    · simp only [KarmaTable.value, KarmaTable.lookup_put]
      by_cases hp : pk = a
      · subst pk
        simp only [↓reduceIte, hl]
        cases c <;> rfl
      · simp [hp]

theorem isLocal_makeLocal (t : KarmaTable) (a pk : Pubkey) :
    (makeLocal t a).isLocal pk = (t.isLocal pk || pk == a) := by
  unfold makeLocal
  split
  · rename_i hl
    simp only [isLocal_put]
    by_cases hp : pk = a <;> simp [hp]
  · rename_i k hl
    split
    · rename_i hk
      by_cases hp : pk = a <;> simp [hp, KarmaTable.isLocal, hl, hk]
    · simp only [isLocal_put]
      by_cases hp : pk = a <;> simp [hp]

def credited (mem : Nat → Pubkey) (authorLocal : Bool) : EventOrAttachment → List (Counter × Pubkey)
  | .attachment _ => []
  | .event ev =>
    if ev.refLevel = 0 ∧ (ev.kind < Kind.encryptedDirectMessages ∨ authorLocal = true) then
      match counterOf ev with
      | some c => (mentioned mem ev).map (fun pk => (c, pk))
      | none => []
    else []

def authorLocal (t : KarmaTable) : EventOrAttachment → Bool
  | .event ev => t.isLocal ev.author
  | .attachment _ => false

def erasedCounters (mem : Nat → Pubkey) (t : KarmaTable) : EventOrAttachment → List UInt32
  | .attachment _ => []
  | .event ev =>
    if ev.refLevel = 0 ∧ (ev.kind < Kind.encryptedDirectMessages ∨ t.isLocal ev.author = true) then
      match counterOf ev with
      | some c => decremented c t (mentioned mem ev)
      | none => []
    else []

theorem count_pairs (c d : Counter) (pk : Pubkey) (pks : List Pubkey) :
    (pks.map (fun p => (c, p))).count (d, pk) = if d = c then pks.count pk else 0 := by
  split
  · rename_i h
    subst d
    exact List.count_map_of_injective (f := fun p => (c, p)) pks (fun _ _ h => (Prod.mk.inj h).2) pk
  · rename_i h
    apply List.count_eq_zero.mpr
    intro hm
    obtain ⟨q, _, he⟩ := List.mem_map.mp hm
    exact h (Prod.mk.inj he).1.symm

theorem whiteList_insert (mem : Nat → Pubkey) (d : EventOrAttachment) (t : KarmaTable)
    (h : ∀ pk c, (t.value pk c).toNat + (credited mem (authorLocal t d) d).count (c, pk) < 2 ^ 32) :
    (∀ pk c, ((whiteListIndexFn false mem d t).value pk c).toNat =
      (t.value pk c).toNat + (credited mem (authorLocal t d) d).count (c, pk)) ∧
    ∀ pk, t.isLocal pk = true → (whiteListIndexFn false mem d t).isLocal pk = true := by
  cases d with
  | attachment att => simp [whiteListIndexFn, credited]
  | event ev =>
    have locals (t' : KarmaTable) (pk : Pubkey) :
        (switchKind false mem ev t').isLocal pk = t'.isLocal pk := by
      unfold switchKind
      cases counterOf ev with
      | none => rfl
      | some c => exact isLocal_counted false c _ t' pk
    by_cases hin : ev.refLevel = 0 ∧
      (ev.kind < Kind.encryptedDirectMessages ∨ t.isLocal ev.author = true)
    · have count (t' : KarmaTable) (hv : ∀ pk c, t'.value pk c = t.value pk c) (pk : Pubkey)
          (c : Counter) :
          ((switchKind false mem ev t').value pk c).toNat =
            (t.value pk c).toNat + (credited mem (authorLocal t (.event ev)) (.event ev)).count
              (c, pk) := by
        simp only [credited, authorLocal, hin, and_self, ↓reduceIte, switchKind] at h ⊢
        cases hc : counterOf ev with
        | none => simp [hv]
        | some c' =>
          simp only [hc] at h
          simp only [updateCounter]
          rw [value_insert c' _ t' (fun q => ?_), hv]
          have := h q c'
          rwa [count_pairs, if_pos rfl, ← hv] at this
      simp only [whiteListIndexFn, hin.1, ne_eq, not_true_eq_false, Bool.false_eq_true, ↓reduceIte]
      by_cases hk : ev.kind < Kind.encryptedDirectMessages
      · simp only [hk, ↓reduceIte]
        exact ⟨count _ (fun pk c => value_makeLocal t ev.author pk c),
          fun pk hp => by rw [locals, isLocal_makeLocal, hp]; rfl⟩
      · simp only [hk, hin.2.resolve_left hk, ↓reduceIte]
        exact ⟨count t (fun _ _ => rfl), fun pk hp => by rw [locals, hp]⟩
    · have hfn : whiteListIndexFn false mem (.event ev) t = t := by
        simp only [whiteListIndexFn]
        by_cases hr : ev.refLevel = 0
        · simp only [hr, true_and, not_or] at hin
          simp [hr, hin]
        · simp [hr]
      simp [hfn, credited, authorLocal, hin]

theorem whiteList_erase (mem : Nat → Pubkey) (d : EventOrAttachment) (t : KarmaTable)
    (h : ∀ pk c, (credited mem (authorLocal t d) d).count (c, pk) ≤ (t.value pk c).toNat) :
    (∀ pk c, ((whiteListIndexFn true mem d t).value pk c).toNat +
      (credited mem (authorLocal t d) d).count (c, pk) = (t.value pk c).toNat) ∧
    (∀ pk, (whiteListIndexFn true mem d t).isLocal pk = t.isLocal pk) ∧
    ∀ v ∈ erasedCounters mem t d, v ≠ 0 := by
  cases d with
  | attachment att => simp [whiteListIndexFn, credited, erasedCounters]
  | event ev =>
    by_cases hin : ev.refLevel = 0 ∧
      (ev.kind < Kind.encryptedDirectMessages ∨ t.isLocal ev.author = true)
    · have hfn : whiteListIndexFn true mem (.event ev) t = switchKind true mem ev t := by
        simp only [whiteListIndexFn, hin.1, ne_eq, not_true_eq_false, ↓reduceIte]
        by_cases hk : ev.kind < Kind.encryptedDirectMessages
        · simp [hk]
        · simp [hk, hin.2.resolve_left hk]
      simp only [hfn, credited, authorLocal, erasedCounters, hin, and_self,
        ↓reduceIte, switchKind] at h ⊢
      cases hc : counterOf ev with
      | none => simp
      | some c =>
        simp only [hc] at h
        obtain ⟨hv, hnz⟩ := value_erase c (mentioned mem ev) t (fun pk => by
          have := h pk c
          rwa [count_pairs, if_pos rfl] at this)
        exact ⟨hv, isLocal_counted true c _ t, hnz⟩
    · have hfn : whiteListIndexFn true mem (.event ev) t = t := by
        simp only [whiteListIndexFn]
        by_cases hr : ev.refLevel = 0
        · simp only [hr, true_and, not_or] at hin
          simp [hr, hin]
        · simp [hr]
      simp [hfn, credited, authorLocal, erasedCounters, hin]

end NostrServer
