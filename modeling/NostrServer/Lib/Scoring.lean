import Mathlib.Data.List.Induction
import Mathlib.Order.Bounds.Basic
import NostrServer.Lib.Recordset

namespace Docdb
variable [LinearOrder R] {sets : Calculator V} {merge : V → V → V} {score : V → R} {id : DocID}

/-- What the set lists for the document has the greatest of these scores. A set that is
inverted gives it none. -/
structure Scores (sets : Calculator V) (score : V → R) (id : DocID) (s : sets.Set)
    (scores : Set R) : Prop where
  greatest : ∀ v, (id, v) ∈ sets.items s → IsGreatest scores (score v)
  inverted : sets.inverted s = true → ¬ Listed (sets.items s) id ∧ scores = ∅

namespace Scores
variable {s t : sets.Set} {S T : Set R}

theorem of_listed (hs : sets.inverted s = false)
    (h : ∀ v, (id, v) ∈ sets.items s → IsGreatest S (score v)) : Scores sets score id s S :=
  ⟨h, fun hi => absurd (hs.symm.trans hi) Bool.false_ne_true⟩

theorem all : Scores sets score id sets.all ∅ := by
  refine ⟨fun v hv => ?_, fun _ => ⟨?_, rfl⟩⟩
  · rw [sets.all_items] at hv
    cases hv
  · simp [sets.all_items, Listed]

theorem push {rows : Records V} (h : ∀ v, (id, v) ∈ rows → score v = r) :
    Scores sets score id (sets.push rows) {r} := by
  refine of_listed (sets.push_inverted rows) (fun v hv => ?_)
  rw [h v (sets.push_value rows id v hv)]
  exact isGreatest_singleton

theorem same (h : Scores sets score id s S) (he : S = T) : Scores sets score id s T := he ▸ h

/-- Leaving early, with a set of nothing, does no harm. -/
theorem leave {c : Prop} [Decidable c] (hc : c → sets.isEmpty s = true)
    (h : Scores sets score id t T) : Scores sets score id (if c then s else t) T := by
  split
  · rename_i hleave
    obtain ⟨hs, hitems⟩ := Bool.and_eq_true_iff.mp (hc hleave)
    refine of_listed (by simpa using hs) (fun v hv => ?_)
    rw [List.isEmpty_iff.mp hitems] at hv
    cases hv
  · exact h

section
variable (hscore : ∀ x y, score (merge x y) = max (score x) (score y))
include hscore

/-- A condition adds its scores. -/
theorem and (h : Scores sets score id s S) (ht : sets.inverted t = false)
    (ht' : Scores sets score id t T) :
    Scores sets score id (sets.and merge s t) (S ∪ T) := by
  refine of_listed (by rw [sets.and_inverted, ht, Bool.and_false]) (fun v hv => ?_)
  have hin : sets.Contains (sets.and merge s t) id :=
    (sets.contains_iff_listed (by rw [sets.and_inverted, ht, Bool.and_false])).mpr ⟨v, hv⟩
  obtain ⟨hs, hlisted⟩ := sets.contains_and.mp hin
  have hlisted : Listed (sets.items t) id := (sets.contains_iff_listed ht).mp hlisted
  rcases sets.and_merged (Or.inr ht) hv with ⟨x, y, hx, hy, rfl⟩ | ⟨-, hno⟩ | ⟨hy, hno⟩
  · rw [hscore]
    exact (h.greatest x hx).union (ht'.greatest y hy)
  · exact absurd hlisted hno
  · cases hi : sets.inverted s with
    | false => exact absurd ((sets.contains_iff_listed hi).mp hs) hno
    | true =>
      rw [(h.inverted hi).2, Set.empty_union]
      exact ht'.greatest v hy

theorem and_unless {c : Bool} (h : Scores sets score id s S) (ht : sets.inverted t = false)
    (ht' : Scores sets score id t T) :
    Scores sets score id (if c then s else sets.and merge s t)
      (S ∪ {r | c = false ∧ r ∈ T}) := by
  cases c with
  | true => exact h.same (by simp)
  | false => exact (h.and hscore ht ht').same (by simp)

theorem and_when {c : Bool} (h : Scores sets score id s S) (ht : sets.inverted t = false)
    (ht' : Scores sets score id t T) :
    Scores sets score id (if c then sets.and merge s t else s)
      (S ∪ {r | c = true ∧ r ∈ T}) := by
  cases c with
  | true => exact (h.and hscore ht ht').same (by simp)
  | false => exact h.same (by simp)

theorem and_all {sel : α → sets.Set} {scores : α → Set R}
    (hsel : ∀ a, sets.inverted (sel a) = false ∧ Scores sets score id (sel a) (scores a))
    (values : List α) (h : Scores sets score id s S) :
    Scores sets score id (values.foldl (fun s a => sets.and merge s (sel a)) s)
      (S ∪ {r | ∃ a ∈ values, r ∈ scores a}) := by
  induction values generalizing s S with
  | nil => exact h.same (by simp)
  | cons a values ih =>
    refine (ih (h.and hscore (hsel a).1 (hsel a).2)).same ?_
    ext r
    simp [or_assoc]

/-- A union gives the scores of those that contain the document. -/
theorem union {sel : α → sets.Set} {scores : α → Set R} {values : List α}
    (hsel : ∀ a ∈ values, sets.inverted (sel a) = false ∧ Scores sets score id (sel a) (scores a)) :
    Scores sets score id (values.foldl (fun s a => sets.or merge s (sel a)) (sets.push []))
      {r | ∃ a ∈ values, sets.Contains (sel a) id ∧ r ∈ scores a} := by
  induction values using List.reverseRecOn with
  | nil =>
    refine of_listed (sets.push_inverted _) (fun v hv => ?_)
    exact absurd (sets.push_value _ _ _ hv) List.not_mem_nil
  | append_singleton values a ih =>
    obtain ⟨hbefore, hlast⟩ := List.forall_mem_append.mp hsel
    obtain ⟨hlast, hgives⟩ := hlast a List.mem_cons_self
    have ih := ih hbefore
    have hlist : sets.inverted
        (values.foldl (fun s a => sets.or merge s (sel a)) (sets.push [])) = false := by
      rw [sets.inverted_foldl_or, sets.push_inverted, Bool.false_or, List.any_eq_false]
      intro b hb
      simp [(hbefore b hb).1]
    have hin : sets.Contains (values.foldl (fun s a => sets.or merge s (sel a)) (sets.push [])) id ↔
        ∃ b ∈ values, sets.Contains (sel b) id := by
      rw [sets.contains_foldl_or]
      simp [Listed]
    have hlisted : sets.Contains (sel a) id ↔ Listed (sets.items (sel a)) id :=
      sets.contains_iff_listed hlast
    have hsnoc : {r | ∃ b ∈ values ++ [a], sets.Contains (sel b) id ∧ r ∈ scores b} =
        {r | ∃ b ∈ values, sets.Contains (sel b) id ∧ r ∈ scores b} ∪
          {r | sets.Contains (sel a) id ∧ r ∈ scores a} := by
      ext r
      simp [or_and_right, exists_or]
    rw [List.foldl_append, List.foldl_cons, List.foldl_nil, hsnoc]
    refine of_listed (by rw [sets.or_inverted, hlist, hlast, Bool.or_false]) (fun v hv => ?_)
    rcases sets.or_merged hlist hlast hv with ⟨x, y, hx, hy, rfl⟩ | ⟨hx, hno⟩ | ⟨hy, hno⟩
    · rw [hscore]
      have ha := hlisted.mpr ⟨y, hy⟩
      simpa [ha] using (ih.greatest x hx).union (hgives.greatest y hy)
    · have ha : ¬ sets.Contains (sel a) id := fun hc => hno (hlisted.mp hc)
      simpa [ha] using ih.greatest v hx
    · have ha := hlisted.mpr ⟨v, hy⟩
      have hnone : ∀ b ∈ values, ¬ sets.Contains (sel b) id := by
        intro b hb hc
        exact hno ((sets.contains_iff_listed hlist).mp (hin.mpr ⟨b, hb, hc⟩))
      have hempty : {r | ∃ b ∈ values, sets.Contains (sel b) id ∧ r ∈ scores b} = ∅ := by
        ext r
        simp only [Set.mem_ofPred_eq, Set.mem_empty_iff_false, iff_false]
        rintro ⟨b, hb, hc, -⟩
        exact hnone b hb hc
      rw [hempty, Set.empty_union]
      simpa [ha] using hgives.greatest v hy

end

end Scores

end Docdb
