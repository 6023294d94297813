import Mathlib.Data.Nat.Bitwise

namespace Words

theorem shiftRight_toNat (x : UInt32) (n : Nat) (h : n < 32) :
    (x >>> UInt32.ofNat n).toNat = x.toNat / 2 ^ n := by
  have hn : (UInt32.ofNat n).toNat % 32 = n := by
    rw [UInt32.toNat_ofNat_of_lt' (Nat.lt_trans h (by decide)), Nat.mod_eq_of_lt h]
  rw [UInt32.toNat_shiftRight, hn, Nat.shiftRight_eq_div_pow]

theorem shiftLeft_toNat (x : UInt32) (n : Nat) (h : n < 32) :
    (x <<< UInt32.ofNat n).toNat = x.toNat * 2 ^ n % 2 ^ 32 := by
  have hn : (UInt32.ofNat n).toNat % 32 = n := by
    rw [UInt32.toNat_ofNat_of_lt' (Nat.lt_trans h (by decide)), Nat.mod_eq_of_lt h]
  rw [UInt32.toNat_shiftLeft, hn, Nat.shiftLeft_eq]

/-- The bits that a word of 32 bits keeps of a number. -/
theorem low_bits (v k t : Nat) (h : k + t ≤ 32) :
    v % 2 ^ 32 / 2 ^ k % 2 ^ t = v / 2 ^ k % 2 ^ t := by
  have h32 : (2 : Nat) ^ 32 = 2 ^ k * 2 ^ (32 - k) := by rw [← Nat.pow_add]; congr 1; omega
  rw [h32, Nat.mod_mul_right_div_self, Nat.mod_mod_of_dvd _ (Nat.pow_dvd_pow 2 (by omega))]

/-- Bits that are moved in below the others are added. -/
theorem shiftLeft_or_toNat (x y : UInt32) (v w : Nat) (hw : w < 32) (hx : x.toNat = v % 2 ^ 32)
    (hy : y.toNat < 2 ^ w) :
    (x <<< UInt32.ofNat w ||| y).toNat = (v * 2 ^ w + y.toNat) % 2 ^ 32 := by
  have hor : x.toNat * 2 ^ w ||| y.toNat = x.toNat * 2 ^ w + y.toNat := by
    rw [← Nat.shiftLeft_eq, Nat.shiftLeft_add_eq_or_of_lt hy]
  calc (x <<< UInt32.ofNat w ||| y).toNat
      = x.toNat * 2 ^ w % 2 ^ 32 ||| y.toNat % 2 ^ 32 := by
        rw [UInt32.toNat_or, shiftLeft_toNat x w hw, Nat.mod_eq_of_lt y.toNat_lt]
    _ = (x.toNat * 2 ^ w + y.toNat) % 2 ^ 32 := by rw [← Nat.or_mod_two_pow, hor]
    _ = (v * 2 ^ w + y.toNat) % 2 ^ 32 := by rw [hx]; simp [Nat.add_mod, Nat.mul_mod]

theorem xor_and (a b c : UInt32) : (a ^^^ b) &&& c = (a &&& c) ^^^ (b &&& c) :=
  UInt32.toNat_inj.mp (by simp [Nat.and_xor_distrib_right])

/-- A word is its upper bits and its lowest five. -/
theorem low_parts (y : UInt32) : (y >>> 5) <<< 5 ^^^ (y &&& 31) = y := by
  have hhigh : ((y >>> 5) <<< 5).toNat = y.toNat >>> 5 <<< 5 := by
    have hy := y.toNat_lt
    simp only [UInt32.toNat_shiftLeft, UInt32.toNat_shiftRight, UInt32.reduceToNat, Nat.reduceMod]
    apply Nat.mod_eq_of_lt
    rw [Nat.shiftLeft_eq, Nat.shiftRight_eq_div_pow]
    omega
  apply UInt32.toNat_inj.mp
  rw [UInt32.toNat_xor, hhigh, UInt32.toNat_and]
  apply Nat.eq_of_testBit_eq
  intro i
  have hmask : (31 : Nat).testBit i = decide (i < 5) := Nat.testBit_two_pow_sub_one 5 i
  have h31 : (31 : UInt32).toNat = 31 := rfl
  rw [Nat.testBit_xor, Nat.testBit_and, Nat.testBit_shiftLeft, Nat.testBit_shiftRight, h31, hmask]
  by_cases h : i < 5
  · simp [h, Nat.not_le.mpr h]
  · simp [h, Nat.add_sub_cancel' (Nat.not_lt.mp h), Nat.not_lt.mp h]

theorem xor_lt {x y : UInt32} (hx : x.toNat < 2 ^ n) (hy : y.toNat < 2 ^ n) :
    (x ^^^ y).toNat < 2 ^ n := by
  rw [UInt32.toNat_xor]
  exact Nat.xor_lt_two_pow hx hy

theorem and_lt {x y : UInt32} (hy : y.toNat < 2 ^ n) : (x &&& y).toNat < 2 ^ n := by
  rw [UInt32.toNat_and]
  exact Nat.and_lt_two_pow _ hy

end Words
