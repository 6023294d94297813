import Mathlib.Data.Nat.Digits.Defs

namespace Positional

/-- The number with these digits in base `b`. -/
def value (b : Nat) (ds : List Nat) : Nat := Nat.ofDigits b ds.reverse

@[simp] theorem value_nil (b : Nat) : value b [] = 0 := rfl

theorem value_cons (b d : Nat) (ds : List Nat) :
    value b (d :: ds) = d * b ^ ds.length + value b ds := by
  simp [value, Nat.ofDigits_append, Nat.add_comm, Nat.mul_comm]

theorem value_snoc (b : Nat) (ds : List Nat) (d : Nat) :
    value b (ds ++ [d]) = value b ds * b + d := by
  simp [value, Nat.ofDigits_cons, Nat.add_comm, Nat.mul_comm]

theorem value_lt (hb : 1 < b) (h : ∀ d ∈ ds, d < b) : value b ds < b ^ ds.length := by
  rw [← List.length_reverse]
  exact Nat.ofDigits_lt_base_pow_length hb (by simpa using h)

/-- As many digits and the same number: the same digits. -/
theorem value_injective (hb : 1 < b) (hl : ds.length = es.length) (hd : ∀ d ∈ ds, d < b)
    (he : ∀ e ∈ es, e < b) (hv : value b ds = value b es) : ds = es :=
  List.reverse_inj.mp (Nat.ofDigits_inj_of_len_eq hb (by simpa using hl) (by simpa using hd)
    (by simpa using he) hv)

end Positional
