import Mathlib.Data.List.Basic

/-- `le` compares by `key`, and by `rank` where the keys are equal. -/
structure Ranking {α κ ρ : Type} [LT κ] [LE ρ] (le : α → α → Bool) (key : α → κ) (rank : α → ρ) :
    Prop where
  iff : ∀ a b, le a b = true ↔ key a < key b ∨ (key a = key b ∧ rank a ≤ rank b)
  key_irrefl : ∀ k : κ, ¬ k < k
  key_trans : ∀ {k l m : κ}, k < l → l < m → k < m
  key_total : ∀ k l : κ, k < l ∨ k = l ∨ l < k
  rank_trans : ∀ {r s t : ρ}, r ≤ s → s ≤ t → r ≤ t
  rank_total : ∀ r s : ρ, r ≤ s ∨ s ≤ r

namespace Ranking
variable {α κ ρ : Type} [LT κ] [LE ρ] {le : α → α → Bool} {key : α → κ} {rank : α → ρ}

theorem trans (h : Ranking le key rank) (a b c : α) (hab : le a b = true) (hbc : le b c = true) :
    le a c = true := by
  rw [h.iff] at hab hbc ⊢
  rcases hab with hab | ⟨hab, hr⟩
  · rcases hbc with hbc | ⟨hbc, -⟩
    · exact Or.inl (h.key_trans hab hbc)
    · exact Or.inl (hbc ▸ hab)
  · rcases hbc with hbc | ⟨hbc, hr'⟩
    · exact Or.inl (hab ▸ hbc)
    · exact Or.inr ⟨hab.trans hbc, h.rank_trans hr hr'⟩

theorem total (h : Ranking le key rank) (a b : α) : (le a b || le b a) = true := by
  rw [Bool.or_eq_true, h.iff, h.iff]
  rcases h.key_total (key a) (key b) with hlt | heq | hgt
  · exact Or.inl (Or.inl hlt)
  · rcases h.rank_total (rank a) (rank b) with hr | hr
    · exact Or.inl (Or.inr ⟨heq, hr⟩)
    · exact Or.inr (Or.inr ⟨heq.symm, hr⟩)
  · exact Or.inr (Or.inl hgt)

theorem sorted (h : Ranking le key rank) (l : List α) :
    (l.mergeSort le).Pairwise (fun a b => le a b = true) :=
  List.pairwise_mergeSort h.trans h.total l

/-- What is above another has no smaller key. -/
theorem key_le (h : Ranking le key rank) (hab : le a b = true) : ¬ key b < key a := by
  intro hlt
  rcases (h.iff a b).mp hab with hab | ⟨hab, -⟩
  · exact h.key_irrefl _ (h.key_trans hab hlt)
  · exact h.key_irrefl _ (hab ▸ hlt)

/-- What stands between two of one key has it too. -/
theorem between (h : Ranking le key rank) (hab : le a b = true) (hbc : le b c = true)
    (hac : key a = key c) : key b = key a := by
  rcases (h.iff a b).mp hab with hlt | ⟨heq, -⟩
  · exact absurd (hac ▸ hlt) (h.key_le hbc)
  · exact heq.symm

end Ranking
