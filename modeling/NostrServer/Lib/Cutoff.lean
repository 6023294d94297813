import Mathlib.Data.List.Perm.Subperm
import Mathlib.Order.Defs.LinearOrder
import Mathlib.Order.Lattice

namespace Cutoff
variable {α R : Type} [LinearOrder R] {rank : α → R}

/-- Nothing is behind what it outranks. -/
def Ranked (rank : α → R) (l : List α) : Prop := l.Pairwise (fun x y => ¬ rank x < rank y)

/-- Fewer than the limit go before it. -/
def Reached (rank : α → R) (limit : Option Nat) (l : List α) (x : α) : Prop :=
  ∀ n, limit = some n → l.countP (fun z => rank x < rank z) < n

theorem Reached.perm (h : Reached rank limit l x) (hperm : l.Perm l') :
    Reached rank limit l' x :=
  fun n hn => hperm.countP_eq _ ▸ h n hn

/-- What outranks an entry that is reached is within the limit before it. -/
theorem Reached.above {above : List α} (h : Reached rank limit l x)
    (hperm : (above ++ x :: rest).Perm l) (habove : ∀ z ∈ above, rank x < rank z) :
    ∀ n, limit = some n → above.length < n := by
  intro n hn
  have hcount : above.countP (fun z => rank x < rank z) = above.length :=
    List.countP_eq_length.mpr (fun z hz => by simpa using habove z hz)
  calc above.length
      = above.countP (fun z => rank x < rank z) := hcount.symm
    _ ≤ (above ++ x :: rest).countP (fun z => rank x < rank z) := by
      rw [List.countP_append]
      exact Nat.le_add_right _ _
    _ = l.countP (fun z => rank x < rank z) := hperm.countP_eq _
    _ < n := h n hn

/-- What is taken from the front was reached. -/
theorem Ranked.reached {front : List α} (h : Ranked rank (front ++ x :: rest))
    (hlimit : ∀ n, limit = some n → front.length < n) :
    Reached rank limit (front ++ x :: rest) x := by
  intro n hn
  obtain ⟨-, hx, -⟩ := List.pairwise_append.mp h
  have hrest : (x :: rest).countP (fun z => rank x < rank z) = 0 := by
    apply List.countP_eq_zero.mpr
    intro z hz
    rcases List.mem_cons.mp hz with rfl | hz
    · simp
    · simpa using (List.pairwise_cons.mp hx).1 z hz
  calc (front ++ x :: rest).countP (fun z => rank x < rank z)
      = front.countP (fun z => rank x < rank z) := by rw [List.countP_append, hrest, Nat.add_zero]
    _ ≤ front.length := List.countP_le_length
    _ < n := hlimit n hn

/-- Where newer entries outrank what is reached, what is taken goes from newer to older,
and what is left is no newer. -/
theorem Ranked.in_order {newer : α → α → Prop} {sent left : List α}
    (h : Ranked rank (sent ++ left)) (hlimit : ∀ n, limit = some n → sent.length ≤ n)
    (hnewer : ∀ x ∈ sent ++ left, ∀ y ∈ sent ++ left, newer y x →
      Reached rank limit (sent ++ left) x → rank x < rank y) :
    sent.Pairwise (fun x y => ¬ newer y x) ∧ ∀ x ∈ sent, ∀ y ∈ left, ¬ newer y x := by
  have hreached : ∀ x ∈ sent, Reached rank limit (sent ++ left) x := by
    intro x hx
    obtain ⟨front, back, rfl⟩ := List.append_of_mem hx
    rw [List.append_assoc, List.cons_append] at h ⊢
    refine h.reached (fun n hn => Nat.lt_of_lt_of_le ?_ (hlimit n hn))
    simp
  have hrank {x y : α} (hx : x ∈ sent) (hy : y ∈ sent ++ left) (hn : newer y x) :
      rank x < rank y := hnewer x (List.mem_append_left _ hx) y hy hn (hreached x hx)
  obtain ⟨hsent, -, hleft⟩ := List.pairwise_append.mp h
  constructor
  · refine hsent.imp_of_mem (fun hx hy hle hn => hle (hrank hx ?_ hn))
    exact List.mem_append_left _ hy
  · exact fun x hx y hy hn => hleft x hx y hy (hrank hx (List.mem_append_right _ hy) hn)

/-- An entry may come before all that do not outrank it. -/
theorem Ranked.first [DecidableEq α] {l : List α} (h : Ranked rank l) (hx : x ∈ l) :
    ∃ above rest, (above ++ x :: rest).Perm l ∧ Ranked rank (above ++ x :: rest) ∧
      (∀ z ∈ above, rank x < rank z) ∧ ∀ z ∈ rest, ¬ rank x < rank z := by
  have hsplit := List.filter_append_perm (fun z => decide (rank x < rank z)) l
  have hin : x ∈ l.filter (fun z => !decide (rank x < rank z)) := by simp [hx]
  have hrest := List.perm_cons_erase hin
  have habove (z : α) (hz : z ∈ l.filter (fun z => decide (rank x < rank z))) :
      rank x < rank z := by
    simpa using (List.mem_filter.mp hz).2
  have hbelow (z : α) (hz : z ∈ (l.filter (fun z => !decide (rank x < rank z))).erase x) :
      ¬ rank x < rank z := by
    simpa using (List.mem_filter.mp (List.mem_of_mem_erase hz)).2
  refine ⟨_, _, ((hrest.symm.append_left _).trans hsplit), List.pairwise_append.mpr
    ⟨h.filter _, List.pairwise_cons.mpr ⟨hbelow, ?_⟩, ?_⟩, habove, hbelow⟩
  · exact (h.filter _).sublist List.erase_sublist
  · intro y hy z hz hlt
    have hxy := habove y hy
    rcases List.mem_cons.mp hz with rfl | hz
    · exact lt_asymm hxy hlt
    · exact hbelow z hz (lt_trans hxy hlt)

end Cutoff
