import NostrServer.Lib.Positional
import Mathlib.Tactic.Ring

namespace Positional

/-- `made` holds the bits of `taken`, the highest first, but for the last `left` ones. -/
structure Regrouping (f t : Nat) (taken made : List Nat) (left : Nat) : Prop where
  bits : taken.length * f = made.length * t + left
  fits : ∀ d ∈ made, d < 2 ^ t
  high : value (2 ^ t) made = value (2 ^ f) taken / 2 ^ left

/-- `made` holds the bits of `taken` and `pad` zeros after them. -/
structure Padded (f t : Nat) (taken made : List Nat) (pad : Nat) : Prop where
  bits : made.length * t = taken.length * f + pad
  fits : ∀ d ∈ made, d < 2 ^ t
  same : value (2 ^ t) made = value (2 ^ f) taken * 2 ^ pad

namespace Regrouping

theorem nil : Regrouping f t [] [] 0 := ⟨by simp, by simp, by simp⟩

/-- A digit taken leaves its bits over. -/
theorem taken_snoc (h : Regrouping f t taken made left) (hd : d < 2 ^ f) :
    Regrouping f t (taken ++ [d]) made (left + f) := by
  refine ⟨?_, h.fits, ?_⟩
  · rw [List.length_append, List.length_singleton, Nat.add_mul, h.bits]
    omega
  · have hlow : (value (2 ^ f) taken * 2 ^ f + d) / 2 ^ f = value (2 ^ f) taken := by
      rw [Nat.mul_comm, Nat.mul_add_div (Nat.two_pow_pos f), Nat.div_eq_of_lt hd, Nat.add_zero]
    rw [value_snoc, Nat.pow_add, Nat.mul_comm (2 ^ left), ← Nat.div_div_eq_div_mul, hlow, h.high]

/-- The highest of the bits left over make a digit when there are enough of them. -/
theorem made_snoc (h : Regrouping f t taken made (left + t)) :
    Regrouping f t taken (made ++ [value (2 ^ f) taken / 2 ^ left % 2 ^ t]) left := by
  refine ⟨?_, ?_, ?_⟩
  · rw [List.length_append, List.length_singleton, Nat.add_mul, h.bits]
    omega
  · intro d hd
    rcases List.mem_append.mp hd with hd | hd
    · exact h.fits d hd
    · exact List.mem_singleton.mp hd ▸ Nat.mod_lt _ (Nat.two_pow_pos t)
  · rw [value_snoc, h.high, Nat.pow_add, ← Nat.div_div_eq_div_mul, Nat.mul_comm]
    exact Nat.div_add_mod _ _

theorem padded (h : Regrouping f t taken made 0) : Padded f t taken made 0 :=
  ⟨h.bits.symm, h.fits, by simp [h.high]⟩

/-- The bits left over at the end make a digit with zeros after them. -/
theorem padded_snoc (h : Regrouping f t taken made left) (hl : left ≤ t) :
    Padded f t taken (made ++ [value (2 ^ f) taken * 2 ^ (t - left) % 2 ^ t]) (t - left) := by
  obtain ⟨pad, rfl⟩ := Nat.exists_eq_add_of_le hl
  rw [Nat.add_sub_cancel_left]
  refine ⟨?_, ?_, ?_⟩
  · rw [List.length_append, List.length_singleton, Nat.add_mul, h.bits]
    omega
  · intro d hd
    rcases List.mem_append.mp hd with hd | hd
    · exact h.fits d hd
    · exact List.mem_singleton.mp hd ▸ Nat.mod_lt _ (Nat.two_pow_pos _)
  · have hmod : value (2 ^ f) taken * 2 ^ pad % 2 ^ (left + pad) =
        value (2 ^ f) taken % 2 ^ left * 2 ^ pad := by
      rw [Nat.pow_add, Nat.mul_mod_mul_right]
    rw [value_snoc, h.high, hmod]
    calc value (2 ^ f) taken / 2 ^ left * 2 ^ (left + pad)
          + value (2 ^ f) taken % 2 ^ left * 2 ^ pad
        = (2 ^ left * (value (2 ^ f) taken / 2 ^ left) + value (2 ^ f) taken % 2 ^ left)
          * 2 ^ pad := by ring
      _ = value (2 ^ f) taken * 2 ^ pad := by rw [Nat.div_add_mod]

end Regrouping

/-- Padded digits made back into digits of the first width are the digits they were made
of: what is left over is the padding. -/
theorem Padded.regrouped (h : Padded f t xs ys pad) (hpad : pad < f) (hxs : ∀ x ∈ xs, x < 2 ^ f)
    (h' : Regrouping t f ys zs left) (hleft : left < f) : zs = xs := by
  have hbits : zs.length * f + left = xs.length * f + pad := h'.bits.symm.trans h.bits
  have hlength : zs.length = xs.length := by
    have hdiv (n k : Nat) (hk : k < f) : (n * f + k) / f = n := by
      rw [Nat.mul_comm, Nat.mul_add_div (Nat.zero_lt_of_lt hk), Nat.div_eq_of_lt hk, Nat.add_zero]
    rw [← hdiv zs.length left hleft, ← hdiv xs.length pad hpad, hbits]
  have hsame : left = pad := by rw [hlength] at hbits; omega
  have hvalue : value (2 ^ f) zs = value (2 ^ f) xs := by
    rw [h'.high, h.same, hsame, Nat.mul_div_cancel _ (Nat.two_pow_pos pad)]
  exact value_injective (Nat.one_lt_two_pow (Nat.ne_zero_of_lt hpad)) hlength h'.fits hxs hvalue

end Positional
