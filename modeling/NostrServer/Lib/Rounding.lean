import Mathlib.Algebra.Order.Group.Nat
import Mathlib.Tactic.Ring

namespace Rounding

def repunit (b : Nat) : Nat → Nat
  | 0 => 0
  | k + 1 => b * repunit b k + 1

/-- Drops `k` digits, adding `h` before each. -/
def up (b h : Nat) : Nat → Nat → Nat
  | 0, v => v
  | k + 1, v => up b h k ((v + h) / b)

/-- Drops `k` digits, taking `h` before each. -/
def down (b h : Nat) : Nat → Nat → Nat
  | 0, v => v
  | k + 1, v => down b h k ((v - h) / b)

/-- What is added step by step is added at once. -/
theorem up_eq (hb : 0 < b) (h k v : Nat) : up b h k v = (v + h * repunit b k) / b ^ k := by
  induction k generalizing v with
  | zero => simp [up, repunit]
  | succ k ih =>
    have hsum : v + h * repunit b (k + 1) = v + h + h * repunit b k * b := by
      rw [repunit]
      ring
    rw [up, ih, hsum, Nat.pow_succ', ← Nat.div_div_eq_div_mul, Nat.add_mul_div_right _ _ hb]

theorem down_eq (b h k v : Nat) : down b h k v = (v - h * repunit b k) / b ^ k := by
  induction k generalizing v with
  | zero => simp [down, repunit]
  | succ k ih =>
    have hdiff : v - h * repunit b (k + 1) = v - h - b * (h * repunit b k) := by
      rw [repunit, Nat.mul_add, Nat.mul_one, ← Nat.mul_assoc, Nat.mul_comm h b, Nat.mul_assoc]
      omega
    rw [down, ih, hdiff, Nat.pow_succ', ← Nat.div_div_eq_div_mul, Nat.sub_mul_div]

theorem repunit_lt (b k : Nat) : b * repunit (b + 1) k < (b + 1) ^ k := by
  induction k with
  | zero => simp [repunit]
  | succ k ih =>
    calc b * repunit (b + 1) (k + 1) = (b + 1) * (b * repunit (b + 1) k) + b := by
          rw [repunit]
          ring
      _ < (b + 1) * (b * repunit (b + 1) k + 1) := by
          rw [Nat.mul_add]
          omega
      _ ≤ (b + 1) * (b + 1) ^ k := Nat.mul_le_mul_left _ ih
      _ = (b + 1) ^ (k + 1) := (Nat.pow_succ').symm

theorem pow_le_repunit (b k : Nat) : b ^ k ≤ repunit b (k + 1) := by
  induction k with
  | zero => simp [repunit]
  | succ k ih =>
    rw [repunit, Nat.pow_succ']
    exact Nat.le_succ_of_le (Nat.mul_le_mul_left b ih)

/-- A unit more makes the quotient larger. -/
theorem div_lt_div (hP : 0 < P) (h : x + P ≤ y) : x / P < y / P := by
  have hone : (x + P) / P = x / P + 1 := Nat.add_div_right x hP
  have hle := Nat.div_le_div_right (c := P) h
  omega

section
variable {P F : Nat} (hP : 0 < P) (heven : 2 * (P / 2) = P) (hF : P ≤ 2 * F) (hlt : F < P)

/-- What is added reaches the next unit together with the rest or does not. -/
theorem carry (hP : 0 < P) (hc : c < P) (v : Nat) :
    (v + c) / P = v / P + if P ≤ v % P + c then 1 else 0 := by
  rw [Nat.add_div hP, Nat.div_eq_of_lt hc, Nat.mod_eq_of_lt hc, Nat.add_zero]

include hP heven hF hlt in
/-- Adding more than half rounds the same but for the rests that only reach with it. -/
theorem added_nearest_iff (v : Nat) :
    (v + F) / P = (v + P / 2) / P ↔ v % P + F < P ∨ P ≤ 2 * (v % P) := by
  rw [carry hP hlt, carry hP (Nat.div_lt_self hP (by decide))]
  split <;> split <;> omega

include hP heven hF in
/-- Taking at least half rounds to the nearest where there is less than half. -/
theorem taken_nearest_iff (v : Nat) : (v - F) / P = (v + P / 2) / P ↔ 2 * v < P := by
  constructor
  · intro h
    by_contra hge
    exact absurd h (Nat.ne_of_lt (div_lt_div hP (by omega)))
  · intro h
    rw [Nat.div_eq_of_lt (by omega), Nat.div_eq_of_lt (by omega)]

include hP hF in
theorem added_taken_iff (v : Nat) : (v + F) / P = (v - F) / P ↔ v + F < P := by
  constructor
  · intro h
    by_contra hge
    exact absurd h.symm (Nat.ne_of_lt (div_lt_div hP (by omega)))
  · intro h
    rw [Nat.div_eq_of_lt h, Nat.div_eq_of_lt (by omega)]

end

/-- The number of units in a whole number of them is that number. -/
theorem nearest_whole (hP : 0 < P) (v : Nat) : (v * P + P / 2) / P = v := by
  rw [Nat.mul_comm, Nat.mul_add_div hP, Nat.div_eq_of_lt (Nat.div_lt_self hP (by decide)),
    Nat.add_zero]

/-- A unit of even parts rounds as its parts do, with everything in smaller ones. -/
theorem nearest_scale (hk : 0 < k) (P v : Nat) :
    (v * k + 2 * P * k / 2) / (2 * P * k) = (v + P) / (2 * P) := by
  have hhalf : 2 * P * k / 2 = P * k := by
    rw [Nat.mul_assoc, Nat.mul_div_cancel_left _ (by decide)]
  rw [hhalf, ← Nat.add_mul, Nat.mul_div_mul_right _ _ hk]

/-- The first digit that is dropped decides on the rounding. -/
theorem nearest_cut (hP : 0 < P) (hr : r < P) (h v : Nat) :
    (v * P + r + h * P) / (2 * (h * P)) = (v + h) / (2 * h) := by
  have hsum : v * P + r + h * P = P * (v + h) + r := by ring
  have hunit : 2 * (h * P) = P * (2 * h) := by ring
  rw [hsum, hunit, ← Nat.div_div_eq_div_mul, Nat.mul_add_div hP, Nat.div_eq_of_lt hr, Nat.add_zero]

end Rounding
