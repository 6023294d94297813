import Mathlib.Algebra.BigOperators.Group.Finset.Piecewise
import Mathlib.Algebra.Order.BigOperators.Group.Finset
import Mathlib.Data.Fintype.Basic

namespace Holding
variable {ι κ : Type} [Fintype ι] [DecidableEq κ]
variable {held : ι → Option κ} {i : ι} {x : Option κ} {h : κ}

def holders (held : ι → Option κ) (h : κ) : Nat :=
  (Finset.univ.filter (fun i => held i = some h)).card

theorem holders_eq_zero : holders held h = 0 ↔ ∀ i, held i ≠ some h := by
  simp [holders, Finset.card_eq_zero, Finset.filter_eq_empty_iff]

theorem holders_pos : 0 < holders held h ↔ ∃ i, held i = some h := by
  rw [Nat.pos_iff_ne_zero, ne_eq, holders_eq_zero]
  simp

variable [DecidableEq ι]

/-- One owner's reference moves: the thing it leaves loses a holder, the other gains one. -/
theorem holders_update (held : ι → Option κ) (i : ι) (x : Option κ) (h : κ) :
    holders (Function.update held i x) h + (if held i = some h then 1 else 0) =
      holders held h + if x = some h then 1 else 0 := by
  have split (f : ι → Option κ) : holders f h =
      (∑ j ∈ Finset.univ.erase i, if f j = some h then 1 else 0) +
        if f i = some h then 1 else 0 := by
    rw [holders, Finset.card_filter, Finset.sum_erase_add _ _ (Finset.mem_univ i)]
  have rest :
      (∑ j ∈ Finset.univ.erase i, if Function.update held i x j = some h then 1 else 0) =
      ∑ j ∈ Finset.univ.erase i, if held j = some h then 1 else 0 := by
    apply Finset.sum_congr rfl
    intro j hj
    rw [Function.update_of_ne (Finset.ne_of_mem_erase hj)]
  rw [split (Function.update held i x), split held, rest, Function.update_self]
  omega

theorem holders_take (hi : held i ≠ some h) :
    holders (Function.update held i (some h)) h = holders held h + 1 := by
  simpa [hi] using holders_update held i (some h) h

theorem holders_release (hi : held i = some h) (hx : x ≠ some h) :
    holders (Function.update held i x) h + 1 = holders held h := by
  simpa [hi, hx] using holders_update held i x h

theorem holders_elsewhere (hi : held i ≠ some h) (hx : x ≠ some h) :
    holders (Function.update held i x) h = holders held h := by
  simpa [hi, hx] using holders_update held i x h

end Holding
