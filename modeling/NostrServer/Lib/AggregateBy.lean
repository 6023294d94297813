import Mathlib.Data.List.Basic

namespace Docdb

/-- Successive rows of one key make one row, of what the function makes of them alone. -/
structure AggregateBy where
  recordset : ∀ {ρ κ ν : Type} [DecidableEq κ], (ρ → κ) → (List ρ → ν) → List ρ → List (κ × ν)
  recordset_nil : ∀ {ρ κ ν : Type} [DecidableEq κ] (key : ρ → κ) (f : List ρ → ν),
    recordset key f [] = []
  recordset_append : ∀ {ρ κ ν : Type} [DecidableEq κ] (key : ρ → κ) (f : List ρ → ν) {k : κ}
    {group rest : List ρ}, group ≠ [] → (∀ r ∈ group, key r = k) →
      (∀ r ∈ rest.head?, key r ≠ k) →
        recordset key f (group ++ rest) = (k, f group) :: recordset key f rest

def groups {ρ κ : Type} [DecidableEq κ] (key : ρ → κ) : List ρ → List (κ × List ρ)
  | [] => []
  | r :: rows =>
    match groups key rows with
    | [] => [(key r, [r])]
    | (k, group) :: rest =>
      if key r = k then (k, r :: group) :: rest else (key r, [r]) :: (k, group) :: rest

section
variable {ρ κ : Type} [DecidableEq κ] {key : ρ → κ}

/-- The first group has the key of the first row. -/
theorem groups_head (rows : List ρ) :
    (groups key rows).head?.map Prod.fst = rows.head?.map key := by
  cases rows with
  | nil => rfl
  | cons r rows =>
    unfold groups
    split
    · rfl
    · split
      · rename_i hk
        exact congrArg some hk.symm
      · rfl

theorem groups_append {k : κ} {group rest : List ρ} (hne : group ≠ [])
    (hgroup : ∀ r ∈ group, key r = k) (hrest : ∀ r ∈ rest.head?, key r ≠ k) :
    groups key (group ++ rest) = (k, group) :: groups key rest := by
  induction group with
  | nil => exact absurd rfl hne
  | cons r group ih =>
    obtain ⟨rfl, hgroup⟩ := List.forall_mem_cons.mp hgroup
    rw [List.cons_append, groups]
    by_cases hlast : group = []
    · subst hlast
      have hhead : (groups key rest).head?.map Prod.fst = rest.head?.map key := groups_head rest
      rw [List.nil_append]
      cases hrows : groups key rest with
      | nil => rfl
      | cons g gs =>
        rw [hrows] at hhead
        have hne : key r ≠ g.1 := by
          intro he
          obtain ⟨q, hq, hk⟩ := Option.map_eq_some_iff.mp hhead.symm
          exact hrest q hq (hk.trans he.symm)
        simp [hne]
    · rw [ih hlast hgroup]
      simp

end

/-- An aggregation that meets the interface. -/
def plainAggregate : AggregateBy where
  recordset key f rows := (groups key rows).map (fun g => (g.1, f g.2))
  recordset_nil _ _ := rfl
  recordset_append key f k group rest hne hgroup hrest := by
    rw [groups_append hne hgroup hrest, List.map_cons]

variable {ρ κ ν : Type} {key : ρ → κ} {lt : κ → κ → Prop}

def KeysAscend (lt : κ → κ → Prop) (key : ρ → κ) (rows : List ρ) : Prop :=
  rows.Pairwise (fun r q => lt (key r) (key q) ∨ key r = key q)

/-- The rows of the first key stand in front of those of greater ones. -/
theorem KeysAscend.split (htrans : ∀ k l m, lt k l → lt l m → lt k m) {r : ρ} {rows : List ρ}
    (h : KeysAscend lt key (r :: rows)) :
    ∃ group rest, r :: rows = group ++ rest ∧ group ≠ [] ∧ (∀ q ∈ group, key q = key r) ∧
      ∀ q ∈ rest, lt (key r) (key q) := by
  induction rows generalizing r with
  | nil => exact ⟨[r], [], rfl, by simp, by simp, by simp⟩
  | cons s rows ih =>
    obtain ⟨hr, hs⟩ := List.pairwise_cons.mp h
    rcases hr s List.mem_cons_self with hlt | he
    · refine ⟨[r], s :: rows, rfl, by simp, by simp, fun q hq => ?_⟩
      rcases List.mem_cons.mp hq with rfl | hq
      · exact hlt
      · rcases (List.pairwise_cons.mp hs).1 q hq with hlt' | he
        · exact htrans _ _ _ hlt hlt'
        · exact he ▸ hlt
    · obtain ⟨group, rest, hrows, -, hgroup, hrest⟩ := ih hs
      refine ⟨r :: group, rest, by rw [hrows, List.cons_append], by simp, ?_, he ▸ hrest⟩
      exact List.forall_mem_cons.mpr ⟨rfl, he ▸ hgroup⟩

/-- Rows in the order of their keys are aggregated to one row for each key, in that order,
each made of all the rows of its key. -/
theorem AggregateBy.ascending [DecidableEq κ] (agg : AggregateBy) (hirrefl : ∀ k, ¬ lt k k)
    (htrans : ∀ k l m, lt k l → lt l m → lt k m) (f : List ρ → ν) {rows : List ρ}
    (h : KeysAscend lt key rows) :
    (agg.recordset key f rows).Pairwise (fun p q => lt p.1 q.1) ∧
      ∀ k v, (k, v) ∈ agg.recordset key f rows ↔
        (∃ r ∈ rows, key r = k) ∧ v = f (rows.filter (fun r => key r = k)) := by
  induction hn : rows.length using Nat.strongRecOn generalizing rows with
  | ind n ih =>
    cases rows with
    | nil => simp [agg.recordset_nil]
    | cons r rows =>
      obtain ⟨group, rest, hrows, hne, hgroup, hrest⟩ := h.split htrans
      rw [hrows] at h hn ⊢
      have hapart : ∀ q ∈ rest, key q ≠ key r := fun q hq he => hirrefl _ (he ▸ hrest q hq)
      have hshort : rest.length < n := by
        rw [← hn, List.length_append]
        exact Nat.lt_add_of_pos_left (List.length_pos_of_ne_nil hne)
      obtain ⟨hpairs, hmem⟩ := ih _ hshort (List.pairwise_append.mp h).2.1 rfl
      have hhead : ∀ q ∈ rest.head?, key q ≠ key r :=
        fun q hq => hapart q (List.mem_of_mem_head? hq)
      rw [agg.recordset_append key f hne hgroup hhead]
      refine ⟨List.pairwise_cons.mpr ⟨?_, hpairs⟩, fun k v => ?_⟩
      · rintro ⟨k, v⟩ hp
        obtain ⟨⟨q, hq, rfl⟩, -⟩ := (hmem k v).mp hp
        exact hrest q hq
      · rw [List.mem_cons, hmem, Prod.mk.injEq, List.filter_append]
        by_cases hk : k = key r
        · subst hk
          have hall : group.filter (fun q => key q = key r) = group := by
            simpa using hgroup
          have hnone : rest.filter (fun q => key q = key r) = [] := by
            simpa using hapart
          obtain ⟨q, hq⟩ := List.exists_mem_of_ne_nil group hne
          rw [hall, hnone, List.append_nil]
          constructor
          · rintro (⟨-, rfl⟩ | ⟨⟨s, hs, he⟩, -⟩)
            · exact ⟨⟨q, List.mem_append_left _ hq, hgroup q hq⟩, rfl⟩
            · exact absurd he (hapart s hs)
          · rintro ⟨-, rfl⟩
            exact Or.inl ⟨rfl, rfl⟩
        · have hnone : group.filter (fun q => key q = k) = [] := by
            simp only [List.filter_eq_nil_iff, decide_eq_true_eq]
            exact fun q hq he => hk (he.symm.trans (hgroup q hq))
          rw [hnone, List.nil_append]
          constructor
          · rintro (⟨he, -⟩ | ⟨⟨s, hs, he⟩, hv⟩)
            · exact absurd he hk
            · exact ⟨⟨s, List.mem_append_right _ hs, he⟩, hv⟩
          · rintro ⟨⟨s, hs, he⟩, hv⟩
            rcases List.mem_append.mp hs with hs | hs
            · exact absurd (he.symm.trans (hgroup s hs)) hk
            · exact Or.inr ⟨⟨s, hs, he⟩, hv⟩

end Docdb
