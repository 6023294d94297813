import NostrServer.Peer
import NostrServer.Lib.Positional

namespace NostrServer

def byteBits (v : UInt8) : List Bool := (List.range 8).reverse.map v.toNat.testBit

def leadingZeroBits (bytes : Str) : Nat := ((bytes.flatMap byteBits).takeWhile (fun x => !x)).length

theorem byte_leading (v : UInt8) : v ≠ 0 → ((byteBits v).takeWhile (fun x => !x)).length < 8 :=
  forall_byte (p := fun v => v ≠ 0 → ((byteBits v).takeWhile (fun x => !x)).length < 8)
    (by decide +kernel) v

theorem byteBits_length (v : UInt8) : (byteBits v).length = 8 := by simp [byteBits]

theorem leadingZeroBits_zero (l : Str) : leadingZeroBits (0 :: l) = 8 + leadingZeroBits l := by
  have hz : byteBits 0 = List.replicate 8 false := by decide
  simp [leadingZeroBits, hz]
  omega

theorem leadingZeroBits_nonzero (h : v ≠ 0) (l : Str) :
    leadingZeroBits (v :: l) = leadingZeroBits [v] := by
  have hlt := byte_leading v h
  have hl := byteBits_length v
  simp only [leadingZeroBits, List.flatMap_cons, List.flatMap_nil, List.append_nil,
    List.takeWhile_append]
  rw [if_neg (by omega)]

/-- Zeros all the way. -/
theorem leadingZeroBits_zeros (l : Str) (h : ∀ v ∈ l, v = 0) :
    leadingZeroBits l = 8 * l.length := by
  induction l with
  | nil => rfl
  | cons v l ih =>
    rw [h v List.mem_cons_self, leadingZeroBits_zero,
      ih (fun w hw => h w (List.mem_cons_of_mem _ hw)), List.length_cons]
    omega

/-- The digits `check_pow` knows are those `from_hex` reads. -/
theorem powNibble_hex (a : UInt8) : ∀ x, powNibble a = some x → x = hexNibble a :=
  forall_byte (p := fun a => ∀ x, powNibble a = some x → x = hexNibble a) (by
    intro i x h
    have hall : ∀ i : Fin 256,
        (powNibble (UInt8.ofFin i)).all (fun x => x == hexNibble (UInt8.ofFin i)) = true := by
      decide +kernel
    have := hall i
    rw [h] at this
    simpa using this) a

/-- A digit that is not zero ends the count with what `nibble_sizes` says. -/
theorem nibble_leading : ∀ i j : Fin 16, (i ≠ 0 →
    leadingZeroBits [UInt8.ofNat i <<< 4 ||| UInt8.ofNat j] = nibbleSizes.getD i 0) ∧
    (i = 0 → j ≠ 0 → leadingZeroBits [UInt8.ofNat i <<< 4 ||| UInt8.ofNat j] =
      4 + nibbleSizes.getD j 0) := by
  decide +kernel

theorem pair_leading {x y : UInt8} (hx : x ≤ 0xF) (hy : y ≤ 0xF) :
    (x ≠ 0 → leadingZeroBits [x <<< 4 ||| y] = nibbleSizes.getD x.toNat 0) ∧
    (x = 0 → y ≠ 0 → leadingZeroBits [x <<< 4 ||| y] = 4 + nibbleSizes.getD y.toNat 0) := by
  obtain ⟨i, rfl⟩ := nibble_cases hx
  obtain ⟨j, rfl⟩ := nibble_cases hy
  have hz (k : Fin 16) : UInt8.ofNat k = 0 ↔ k = 0 := by
    revert k
    decide
  have hn (k : Fin 16) : (UInt8.ofNat k).toNat = k := by
    revert k
    decide
  simp only [hn, ne_eq, hz]
  exact nibble_leading i j

/-- The loop counts the bits of the bytes the text spells, once it meets one that is
not zero. -/
theorem checkPowLoop_bits (text : Str) (bits k : Nat) (h : checkPowLoop pow bits text = true)
    (hv : ∃ v ∈ (spelled text).take k, v ≠ 0) (rest : Str) :
    pow ≤ (bits + leadingZeroBits ((spelled text).take k ++ rest) : Nat) := by
  match text with
  | [] => simp [spelled] at hv
  | [a] => simp [spelled] at hv
  | a :: b :: text =>
    by_cases ha : hexNibble a > 0xF
    · simp [spelled, ha] at hv
    by_cases hb : hexNibble b > 0xF
    · simp [spelled, ha, hb] at hv
    have hs : spelled (a :: b :: text) = (hexNibble a <<< 4 ||| hexNibble b) :: spelled text := by
      simp [spelled, ha, hb]
    cases k with
    | zero => simp at hv
    | succ k =>
      have ha := UInt8.not_lt.mp ha
      have hb := UInt8.not_lt.mp hb
      obtain ⟨hhigh, hlow⟩ := pair_leading ha hb
      rw [hs, List.take_succ_cons] at hv ⊢
      rw [List.cons_append]
      unfold checkPowLoop at h
      split at h
      · cases h
      rename_i x hx
      rw [powNibble_hex a x hx] at h
      by_cases hx0 : hexNibble a = 0
      · unfold checkPowLoop at h
        simp only [hx0, ne_eq, not_true_eq_false, ↓reduceIte] at h
        split at h
        · cases h
        rename_i y hy
        rw [powNibble_hex b y hy] at h
        by_cases hy0 : hexNibble b = 0
        · -- both digits are zero, so the byte is, and the rest decides
          simp only [hy0, not_true_eq_false, ↓reduceIte] at h
          have hzero : (hexNibble a <<< 4 ||| hexNibble b) = 0 := by rw [hx0, hy0]; decide
          rw [hzero] at hv ⊢
          rw [leadingZeroBits_zero]
          have hv' : ∃ v ∈ (spelled text).take k, v ≠ 0 := by simpa using hv
          have := checkPowLoop_bits text (bits + 4 + 4) k h hv' rest
          omega
        · simp only [hy0, not_false_eq_true, ↓reduceIte, decide_eq_true_eq] at h
          have hne : (hexNibble a <<< 4 ||| hexNibble b) ≠ 0 := by
            intro h0
            exact hy0 (by rw [← (byte_parts ha hb).2, h0]; decide)
          rw [leadingZeroBits_nonzero hne, hlow hx0 hy0]
          omega
      · simp only [hx0, ne_eq, not_false_eq_true, ↓reduceIte, decide_eq_true_eq] at h
        have hne : (hexNibble a <<< 4 ||| hexNibble b) ≠ 0 := by
          intro h0
          exact hx0 (by rw [← (byte_parts ha hb).1, h0]; decide)
        rw [leadingZeroBits_nonzero hne, hhigh hx0]
        omega

/-- The text shows the work it stands for: it spells a byte other than zero, or all of
them and no more is asked than there are bits. -/
def ShowsWork (pow : Int) (text : Str) : Prop :=
  (∃ v ∈ (spelled text).take 32, v ≠ 0) ∨ (Written 32 text ∧ pow ≤ 256)

/-- What `check_pow` accepts of such texts are ids with as many leading zero bits. -/
theorem checkPow_leading (h : checkPow pow text = true) (hs : ShowsWork pow text) (u : ID) :
    pow ≤ leadingZeroBits (fromHex u text).bytes := by
  rw [fromHex_bytes]
  by_cases hv : ∃ v ∈ (spelled text).take 32, v ≠ 0
  · simpa using checkPowLoop_bits text 0 32 h hv _
  · obtain ⟨hw, hp⟩ := hs.resolve_left hv
    rw [Nat.min_eq_left hw, List.drop_of_length_le (by simp [u.size]), List.append_nil,
      leadingZeroBits_zeros]
    · rw [List.length_take, Nat.min_eq_left hw]
      exact hp
    · intro v hv'
      exact Classical.not_not.mp (fun hne => hv ⟨v, hv', hne⟩)

def hexNumber (text : Str) : Nat := Positional.value 16 (text.map (fun c => (hexNibble c).toNat))

theorem hexNumber_cons (c : UInt8) (text : Str) :
    hexNumber (c :: text) = (hexNibble c).toNat * 16 ^ text.length + hexNumber text := by
  simp [hexNumber, Positional.value_cons]

theorem hexNumber_lt (h : text.all isHexDigit = true) : hexNumber text < 16 ^ text.length := by
  have hd : ∀ d ∈ text.map (fun c => (hexNibble c).toNat), d < 16 := by
    intro d hd
    obtain ⟨c, hc, rfl⟩ := List.mem_map.mp hd
    have hle := UInt8.le_iff_toNat_le.mp (digit_letter c (List.all_eq_true.mp h c hc)).1
    exact Nat.lt_succ_of_le hle
  simpa [hexNumber] using Positional.value_lt (by decide) hd

/-- `check_pow` knows every hexadecimal digit. -/
theorem powNibble_digit (c : UInt8) : isHexDigit c = true → powNibble c = some (hexNibble c) :=
  forall_byte (p := fun c => isHexDigit c = true → powNibble c = some (hexNibble c))
    (by decide +kernel) c

/-- `nibble_sizes` counts the zero bits above the highest bit of a digit. -/
theorem nibbleSizes_bounds {x : UInt8} (hx : x ≤ 0xF) (h0 : x ≠ 0) :
    nibbleSizes.getD x.toNat 0 ≤ 3 ∧
    2 ^ (3 - nibbleSizes.getD x.toNat 0) ≤ x.toNat ∧
    x.toNat < 2 ^ (4 - nibbleSizes.getD x.toNat 0) := by
  obtain ⟨i, rfl⟩ := nibble_cases hx
  revert i
  decide

/-- From `bits` zero bits on, the loop asks whether the rest is small enough. -/
theorem checkPowLoop_iff {pow : Nat} (h : text.all isHexDigit = true)
    (hp : pow ≤ bits + 4 * text.length) :
    checkPowLoop pow bits text = true ↔ hexNumber text < 2 ^ (bits + 4 * text.length - pow) := by
  induction text generalizing bits with
  | nil => simp [checkPowLoop, hexNumber]
  | cons c text ih =>
    simp only [List.all_cons, Bool.and_eq_true] at h
    simp only [List.length_cons] at hp ⊢
    have hsixteen : 16 ^ text.length = 2 ^ (4 * text.length) := by rw [Nat.pow_mul]
    rw [checkPowLoop, powNibble_digit c h.1, hexNumber_cons]
    dsimp only
    by_cases h0 : hexNibble c = 0
    · have hsum : bits + 4 * (text.length + 1) = bits + 4 + 4 * text.length := by omega
      simp only [h0, ne_eq, not_true_eq_false, ↓reduceIte, hsum]
      simpa using ih h.2 (by omega)
    · obtain ⟨hs, hlow, hhigh⟩ := nibbleSizes_bounds (digit_letter c h.1).1 h0
      have hrest := hexNumber_lt h.2
      generalize nibbleSizes.getD (hexNibble c).toNat 0 = size at *
      generalize (hexNibble c).toNat = x at *
      rw [hsixteen] at hrest ⊢
      simp only [ne_eq, h0, not_false_eq_true, ↓reduceIte, decide_eq_true_eq, Int.ofNat_le]
      constructor
      · intro hle
        calc x * 2 ^ (4 * text.length) + hexNumber text < (x + 1) * 2 ^ (4 * text.length) := by
              rw [Nat.succ_mul x]
              exact Nat.add_lt_add_left hrest _
          _ ≤ 2 ^ (4 - size) * 2 ^ (4 * text.length) := Nat.mul_le_mul_right _ hhigh
          _ = 2 ^ (4 - size + 4 * text.length) := (Nat.pow_add ..).symm
          _ ≤ 2 ^ (bits + 4 * (text.length + 1) - pow) :=
            Nat.pow_le_pow_right (by decide) (by omega)
      · intro hlt
        by_contra hgt
        have hle : 2 ^ (bits + 4 * (text.length + 1) - pow) ≤ x * 2 ^ (4 * text.length) :=
          calc 2 ^ (bits + 4 * (text.length + 1) - pow) ≤ 2 ^ (3 - size + 4 * text.length) :=
                Nat.pow_le_pow_right (by decide) (by omega)
            _ = 2 ^ (3 - size) * 2 ^ (4 * text.length) := Nat.pow_add ..
            _ ≤ x * 2 ^ (4 * text.length) := Nat.mul_le_mul_right _ hlow
        omega

/-- The check is a bound on the number the id spells. -/
theorem check_pow_numeric (text : Str) (h : HexText 32 text) (pow : Int) (h0 : 0 ≤ pow)
    (h256 : pow ≤ 256) :
    checkPow pow text = true ↔ hexNumber text < 2 ^ (256 - pow).toNat := by
  obtain ⟨p, rfl⟩ := Int.eq_ofNat_of_zero_le h0
  have hlen : 4 * text.length = 256 := by rw [h.1]
  have hexp : (256 - (p : Int)).toNat = 0 + 4 * text.length - p := by omega
  rw [hexp]
  exact checkPowLoop_iff h.2 (by omega)

/-- An id whose first digit is 1 shows three bits of work, and no more. -/
theorem check_pow_three : checkPow 3 (str "1" ++ List.replicate 63 102) = true ∧
    ¬ checkPow 4 (str "1" ++ List.replicate 63 102) = true :=
  ⟨(check_pow_numeric _ (by decide) 3 (by decide) (by decide)).mpr (by decide +kernel),
    fun h => absurd ((check_pow_numeric _ (by decide) 4 (by decide) (by decide)).mp h)
      (by decide +kernel)⟩

end NostrServer
