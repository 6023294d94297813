import Mathlib.Order.Lattice

namespace SortedTable
variable {κ α : Type} [LinearOrder κ] (key : α → κ)

def Sorted (l : List α) : Prop := l.Pairwise (fun a b => key a < key b)

def upsert (k : κ) (change : α → α) (new : α) (l : List α) : List α :=
  let below := l.takeWhile (fun a => key a < k)
  match l.dropWhile (fun a => key a < k) with
  | [] => below ++ [new]
  | a :: above => if key a = k then below ++ change a :: above else below ++ new :: a :: above

variable {key} {k : κ} {change : α → α} {new : α}

theorem upsert_cons (a : α) (l : List α) : upsert key k change new (a :: l) =
    if key a < k then a :: upsert key k change new l
    else if key a = k then change a :: l else new :: a :: l := by
  unfold upsert
  by_cases h : key a < k
  · simp only [h, decide_true, List.takeWhile_cons_of_pos, List.dropWhile_cons_of_pos, ↓reduceIte]
    split
    · rfl
    · split <;> rfl
  · simp [h]

/-- The entries of other keys stay, and the key has its changed entry or the new one. -/
theorem mem_upsert {l : List α} (h : Sorted key l) : b ∈ upsert key k change new l ↔
    (b ∈ l ∧ key b ≠ k) ∨ (∃ a ∈ l, key a = k ∧ b = change a) ∨
      ((∀ a ∈ l, key a ≠ k) ∧ b = new) := by
  induction l with
  | nil => simp [upsert]
  | cons a l ih =>
    obtain ⟨habove, hl⟩ := List.pairwise_cons.mp h
    rw [upsert_cons]
    rcases lt_trichotomy (key a) k with hlt | heq | hgt
    · rw [if_pos hlt, List.mem_cons, ih hl]
      have hne : key a ≠ k := ne_of_lt hlt
      constructor
      · rintro (rfl | ⟨hb, hkey⟩ | ⟨c, hc, hkey, rfl⟩ | ⟨hnone, rfl⟩)
        · exact Or.inl ⟨List.mem_cons_self, hne⟩
        · exact Or.inl ⟨List.mem_cons_of_mem _ hb, hkey⟩
        · exact Or.inr (Or.inl ⟨c, List.mem_cons_of_mem _ hc, hkey, rfl⟩)
        · exact Or.inr (Or.inr ⟨List.forall_mem_cons.mpr ⟨hne, hnone⟩, rfl⟩)
      · rintro (⟨hb, hkey⟩ | ⟨c, hc, hkey, rfl⟩ | ⟨hnone, rfl⟩)
        · rcases List.mem_cons.mp hb with rfl | hb
          · exact Or.inl rfl
          · exact Or.inr (Or.inl ⟨hb, hkey⟩)
        · rcases List.mem_cons.mp hc with rfl | hc
          · exact absurd hkey hne
          · exact Or.inr (Or.inr (Or.inl ⟨c, hc, hkey, rfl⟩))
        · exact Or.inr (Or.inr (Or.inr ⟨(List.forall_mem_cons.mp hnone).2, rfl⟩))
    · have hother (c : α) (hc : c ∈ l) : key c ≠ k := ne_of_gt (heq ▸ habove c hc)
      rw [if_neg (heq ▸ lt_irrefl _), if_pos heq, List.mem_cons]
      constructor
      · rintro (rfl | hb)
        · exact Or.inr (Or.inl ⟨a, List.mem_cons_self, heq, rfl⟩)
        · exact Or.inl ⟨List.mem_cons_of_mem _ hb, hother b hb⟩
      · rintro (⟨hb, hkey⟩ | ⟨c, hc, hkey, rfl⟩ | ⟨hnone, rfl⟩)
        · rcases List.mem_cons.mp hb with rfl | hb
          · exact absurd heq hkey
          · exact Or.inr hb
        · rcases List.mem_cons.mp hc with rfl | hc
          · exact Or.inl rfl
          · exact absurd hkey (hother c hc)
        · exact absurd heq (hnone a List.mem_cons_self)
    · have hother (c : α) (hc : c ∈ a :: l) : key c ≠ k := by
        rcases List.mem_cons.mp hc with rfl | hc
        · exact ne_of_gt hgt
        · exact ne_of_gt (lt_trans hgt (habove c hc))
      rw [if_neg (lt_asymm hgt), if_neg (ne_of_gt hgt), List.mem_cons]
      constructor
      · rintro (rfl | hb)
        · exact Or.inr (Or.inr ⟨hother, rfl⟩)
        · exact Or.inl ⟨hb, hother b hb⟩
      · rintro (⟨hb, -⟩ | ⟨c, hc, hkey, -⟩ | ⟨-, rfl⟩)
        · exact Or.inr hb
        · exact absurd hkey (hother c hc)
        · exact Or.inl rfl

theorem sorted_upsert {l : List α} (h : Sorted key l) (hchange : ∀ a, key (change a) = key a)
    (hnew : key new = k) : Sorted key (upsert key k change new l) := by
  induction l with
  | nil => exact List.pairwise_singleton _ _
  | cons a l ih =>
    obtain ⟨habove, hl⟩ := List.pairwise_cons.mp h
    rw [upsert_cons]
    rcases lt_trichotomy (key a) k with hlt | heq | hgt
    · rw [if_pos hlt]
      refine List.pairwise_cons.mpr ⟨fun b hb => ?_, ih hl⟩
      rcases (mem_upsert hl).mp hb with ⟨hb, -⟩ | ⟨c, hc, -, rfl⟩ | ⟨-, rfl⟩
      · exact habove b hb
      · exact hchange c ▸ habove c hc
      · exact hnew ▸ hlt
    · rw [if_neg (heq ▸ lt_irrefl _), if_pos heq]
      exact List.pairwise_cons.mpr ⟨fun b hb => hchange a ▸ habove b hb, hl⟩
    · rw [if_neg (lt_asymm hgt), if_neg (ne_of_gt hgt)]
      refine List.pairwise_cons.mpr ⟨fun b hb => ?_, h⟩
      rw [hnew]
      rcases List.mem_cons.mp hb with rfl | hb
      · exact hgt
      · exact lt_trans hgt (habove b hb)

end SortedTable
