abbrev LatestMap (κ ν : Type) := κ → Option ν

namespace LatestMap
variable {κ ν τ : Type} [DecidableEq κ] [LT τ] [DecidableLT τ] (time : ν → τ) (m : LatestMap κ ν)

def offer (k : κ) (v : ν) : LatestMap κ ν := fun k' =>
  if k' = k then
    match m k with
    | some w => if time v < time w then some w else some v
    | none => some v
  else m k'

def clear (k : κ) : LatestMap κ ν := fun k' => if k' = k then none else m k'

inductive Move : LatestMap κ ν → Prop where
  | kept : Move m
  | offered (k : κ) (v : ν) : Move (m.offer time k v)
  | cleared (k : κ) : Move (m.clear k)

variable {time m} in
/-- An older value changes nothing. -/
theorem offer_older (hw : m k = some w) (h : time v < time w) : m.offer time k v = m := by
  funext k'
  by_cases hk : k' = k
  · simp [offer, hk, hw, h]
  · simp [offer, hk]

variable [LE τ]

def Since (k : κ) (t : τ) : Prop := ∃ v, m k = some v ∧ t ≤ time v

variable {time m} [Std.IsLinearOrder τ] [Std.LawfulOrderLT τ]

/-- What was offered last is there, or something newer. -/
theorem offer_since (k : κ) (v : ν) : (m.offer time k v).Since time k (time v) := by
  cases hm : m k with
  | none => exact ⟨v, by simp [offer, hm], Std.le_refl _⟩
  | some w =>
    by_cases h : time v < time w
    · exact ⟨w, by simp [offer, hm, h], Std.le_of_lt h⟩
    · exact ⟨v, by simp [offer, hm, h], Std.le_refl _⟩

theorem Since.offer (h : m.Since time k t) (k' : κ) (v : ν) :
    (m.offer time k' v).Since time k t := by
  obtain ⟨w, hw, ht⟩ := h
  by_cases hk : k = k'
  · subst hk
    by_cases hlt : time v < time w
    · exact ⟨w, by simp [LatestMap.offer, hw, hlt], ht⟩
    · exact ⟨v, by simp [LatestMap.offer, hw, hlt], Std.le_trans ht (Std.not_lt.mp hlt)⟩
  · exact ⟨w, by simp [LatestMap.offer, hk, hw], ht⟩

/-- A key that is not cleared never goes back in time. -/
theorem Since.move (h : m.Since time k t) (hm : Move time m m') (hk : m' k ≠ none) :
    m'.Since time k t := by
  cases hm with
  | kept => exact h
  | offered k' v => exact h.offer k' v
  | cleared k' =>
    have hne : k ≠ k' := fun he => hk (by simp [clear, he])
    obtain ⟨w, hw, ht⟩ := h
    exact ⟨w, by simp [clear, hne, hw], ht⟩

end LatestMap
