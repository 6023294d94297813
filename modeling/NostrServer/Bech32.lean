import NostrServer.Binary
import NostrServer.Lib.Words

namespace NostrServer.Bech32

open Words

def M : UInt32 := 0x2bc830a3

def charset : Str := str "qpzry9x8gf2tvdw0s3jn54khce6mua7l"

/-- The values the characters stand for, in both cases; -1 for the others. -/
def reverseCharset : List Int := [
  -1, -1, -1, -1, -1, -1, -1, -1, -1, -1, -1, -1, -1, -1, -1, -1,
  -1, -1, -1, -1, -1, -1, -1, -1, -1, -1, -1, -1, -1, -1, -1, -1,
  -1, -1, -1, -1, -1, -1, -1, -1, -1, -1, -1, -1, -1, -1, -1, -1,
  15, -1, 10, 17, 21, 20, 26, 30,  7,  5, -1, -1, -1, -1, -1, -1,
  -1, 29, -1, 24, 13, 25,  9,  8, 23, -1, 18, 22, 31, 27, 19, -1,
   1,  0,  3, 16, 11, 28, 12, 14,  6,  4,  2, -1, -1, -1, -1, -1,
  -1, 29, -1, 24, 13, 25,  9,  8, 23, -1, 18, 22, 31, 27, 19, -1,
   1,  0,  3, 16, 11, 28, 12, 14,  6,  4,  2, -1, -1, -1, -1, -1]

def separator : UInt8 := 49

def isUpper (c : UInt8) : Bool := 65 ≤ c && c ≤ 90

def isLower (c : UInt8) : Bool := 97 ≤ c && c ≤ 122

/-- `throw std::runtime_error(text)` under a condition. -/
def rejectIf (c : Bool) (text : String) : Except Str Unit := if c then .error (str text) else .ok ()

def rejectBStringMixedCase (b : Str) : Except Str Unit :=
  rejectIf (b.any isUpper && b.any isLower) "bech32 string is mixed case"

def rejectBStringValuesOutOfRange (b : Str) : Except Str Unit :=
  rejectIf (b.any (fun c => c < 33 || c > 126)) "bech32 string has value out of range"

def rejectBStringTooLong (b : Str) : Except Str Unit :=
  rejectIf (b.length > 90) "bech32 string too long"

def rejectBStringTooShort (b : Str) : Except Str Unit :=
  rejectIf (b.length < 8) "bech32 string too short"

def rejectBStringWithNoSeparator (b : Str) : Except Str Unit :=
  rejectIf (!b.any (· = separator)) "bech32 string is missing separator character"

def rejectBStringThatIsntWellFormed (b : Str) : Except Str Unit := do
  rejectBStringTooShort b
  rejectBStringTooLong b
  rejectBStringMixedCase b
  rejectBStringValuesOutOfRange b
  rejectBStringWithNoSeparator b

def rejectHRPTooShort (hrp : Str) : Except Str Unit :=
  rejectIf (hrp.length < 1) "HRP must be at least one character"

def rejectHRPTooLong (hrp : Str) : Except Str Unit :=
  rejectIf (hrp.length > 83) "HRP must be less than 84 characters"

def rejectDPTooShort (dp : Str) : Except Str Unit :=
  rejectIf (dp.length < 6) "data part must be at least six characters"

/-- The values are compared as signed characters: from 128 on they pass. -/
def rejectDataValuesOutOfRange (dp : Str) : Except Str Unit :=
  rejectIf (dp.any (fun c => c > 31 && c < 128)) "data value is out of range"

def rejectBothPartsTooLong (hrp dp : Str) : Except Str Unit :=
  rejectIf (hrp.length + dp.length + 1 + 6 > 90) "length of hrp + length of dp is too large"

def findLastOf (c : UInt8) : Str → Option Nat
  | [] => none
  | x :: rest =>
    match findLastOf c rest with
    | some i => some (i + 1)
    | none => if x = c then some 0 else none

def extractHumanReadablePart (b : Str) : Str :=
  match findLastOf separator b with
  | some pos => b.take pos
  | none => b

def extractDataPart (b : Str) : Str :=
  match findLastOf separator b with
  | some pos => b.drop (pos + 1)
  | none => b

def convertToLowercase (s : Str) : Str := s.map asciiLower

def charValue (c : UInt8) : Int := reverseCharset.getD c.toNat 0

def letter (c : UInt8) : UInt8 := charset.getD c.toNat 0

def mapDP : Str → Except Str Str
  | [] => .ok []
  | c :: dp =>
    if c > 127 then .error (str "data part contains character value out of range")
    else
      let d := charValue c
      if d = -1 then .error (str "data part contains invalid character")
      else
        match mapDP dp with
        | .ok rest => .ok (UInt8.ofNat d.toNat :: rest)
        | .error e => .error e

def mapToCharset : Str → Except Str Str
  | [] => .ok []
  | c :: data =>
    if c > 31 then .error (str "data part contains invalid character")
    else
      match mapToCharset data with
      | .ok rest => .ok (letter c :: rest)
      | .error e => .error e

def expandHrp (hrp : Str) : Str :=
  hrp.map (fun c : UInt8 => c >>> 5) ++ [0] ++ hrp.map (fun c : UInt8 => c &&& 0x1f)

/-- `-((top >> i) & 1u)`: all ones or zero. -/
def topBit (top i : UInt32) : UInt32 := -((top >>> i) &&& 1)

/-- What `polymod` adds for the bits that are shifted out. -/
def generator (top : UInt32) : UInt32 :=
  (topBit top 0 &&& 0x3b6a57b2) ^^^ (topBit top 1 &&& 0x26508e6d) ^^^
    (topBit top 2 &&& 0x1ea119fa) ^^^
  (topBit top 3 &&& 0x3d4233dd) ^^^ (topBit top 4 &&& 0x2a1462b3)

def polymodStep (chk : UInt32) (value : UInt8) : UInt32 :=
  (chk &&& 0x1ffffff) <<< 5 ^^^ value.toUInt32 ^^^ generator (chk >>> 25)

def polymod (values : Str) : UInt32 := values.foldl polymodStep 1

def verifyChecksum (hrp dp : Str) : Bool := polymod (expandHrp hrp ++ dp) = M

def verifyChecksumUsingOriginalConstant (hrp dp : Str) : Bool := polymod (expandHrp hrp ++ dp) = 1

def stripChecksum (dp : Str) : Str := dp.take (dp.length - 6)

def checksumValues (mod : UInt32) : Str :=
  (List.range 6).map (fun i => ((mod >>> UInt32.ofNat (5 * (5 - i))) &&& 31).toUInt8)

def createChecksum (hrp dp : Str) : Str :=
  checksumValues (polymod (expandHrp hrp ++ dp ++ List.replicate 6 0) ^^^ M)

def encodeBasis (hrp dp : Str) (checksumFunc : Str → Str → Str) : Except Str Str := do
  rejectHRPTooShort hrp
  rejectHRPTooLong hrp
  rejectBothPartsTooLong hrp dp
  rejectDataValuesOutOfRange dp
  let hrpCopy := convertToLowercase hrp
  let text ← mapToCharset (dp ++ checksumFunc hrpCopy dp)
  return hrpCopy ++ [separator] ++ text

def createChecksumUsingOriginalConstant (hrp dp : Str) : Str :=
  checksumValues (polymod (expandHrp hrp ++ dp ++ List.replicate 6 0) ^^^ 1)

def encode (hrp dp : Str) : Except Str Str := encodeBasis hrp dp createChecksum

def encodeUsingOriginalConstant (hrp dp : Str) : Except Str Str :=
  encodeBasis hrp dp createChecksumUsingOriginalConstant

inductive Encoding where
  | invalid | bech32 | bech32m
deriving DecidableEq

structure DecodedResult where
  encoding : Encoding := .invalid
  hrp : Str := []
  dp : Str := []
deriving DecidableEq

def decode (b : Str) : Except Str DecodedResult := do
  rejectBStringThatIsntWellFormed b
  let hrp := extractHumanReadablePart b
  let dp := extractDataPart b
  rejectHRPTooShort hrp
  rejectHRPTooLong hrp
  rejectDPTooShort dp
  let hrp := convertToLowercase hrp
  let dp ← mapDP dp
  if verifyChecksum hrp dp then return ⟨.bech32m, hrp, stripChecksum dp⟩
  else if verifyChecksumUsingOriginalConstant hrp dp then return ⟨.bech32, hrp, stripChecksum dp⟩
  else return {}

/-- Bits that are not shifted out yet stay apart from the rest. -/
theorem polymodStep_xor (x d : UInt32) (v : UInt8) (hd : d.toNat < 2 ^ 25) :
    polymodStep (x ^^^ d) v = polymodStep x 0 ^^^ (d <<< 5 ^^^ v.toUInt32) := by
  have htop : d >>> 25 = 0 := by
    apply UInt32.toNat_inj.mp
    rw [show (25 : UInt32) = UInt32.ofNat 25 from rfl, shiftRight_toNat d 25 (by decide),
      Nat.div_eq_of_lt hd]
    rfl
  have hlow : d &&& 0x1ffffff = d := by
    apply UInt32.toNat_inj.mp
    rw [UInt32.toNat_and]
    exact Nat.and_two_pow_sub_one_of_lt_two_pow hd
  unfold polymodStep
  rw [UInt32.shiftRight_xor, htop, UInt32.xor_zero, xor_and, hlow, UInt32.shiftLeft_xor]
  have hzero : (0 : UInt8).toUInt32 = 0 := rfl
  rw [hzero, UInt32.xor_zero]
  ac_rfl

theorem generator_lt (top : UInt32) : (generator top).toNat < 2 ^ 30 :=
  xor_lt (xor_lt (xor_lt (xor_lt (and_lt (by decide)) (and_lt (by decide))) (and_lt (by decide)))
    (and_lt (by decide))) (and_lt (by decide))

theorem polymodStep_lt (chk : UInt32) (v : UInt8) : (polymodStep chk v).toNat < 2 ^ 30 := by
  have hshifted : ((chk &&& 0x1ffffff) <<< 5).toNat < 2 ^ 30 := by
    have hlow : (chk &&& 0x1ffffff).toNat < 2 ^ 25 := and_lt (by decide)
    rw [show (5 : UInt32) = UInt32.ofNat 5 from rfl, shiftLeft_toNat _ 5 (by decide)]
    omega
  have hv : v.toUInt32.toNat < 2 ^ 30 := by
    rw [UInt8.toNat_toUInt32]
    exact Nat.lt_trans v.toNat_lt (by decide)
  exact xor_lt (xor_lt hshifted hv) (generator_lt _)

/-- The lowest values of five bits of a word, the highest of them first. -/
def lowValues (m : UInt32) : Nat → Str
  | 0 => []
  | k + 1 => ((m >>> UInt32.ofNat (5 * k)) &&& 31).toUInt8 :: lowValues m k

theorem checksumValues_eq (mod : UInt32) : checksumValues mod = lowValues mod 6 := rfl

/-- A word that is read after its upper bits have come in differs from zeros by itself. -/
theorem foldl_lowValues {m : UInt32} (hm : m.toNat < 2 ^ 30) (k : Nat) (hk : k ≤ 6) (x : UInt32) :
    (lowValues m k).foldl polymodStep (x ^^^ (m >>> UInt32.ofNat (5 * k))) =
      (List.replicate k 0).foldl polymodStep x ^^^ m := by
  induction k generalizing x with
  | zero => simp [lowValues]
  | succ k ih =>
    have hnext : m >>> UInt32.ofNat (5 * (k + 1)) = (m >>> UInt32.ofNat (5 * k)) >>> 5 := by
      apply UInt32.toNat_inj.mp
      rw [show (5 : UInt32) = UInt32.ofNat 5 from rfl, shiftRight_toNat _ _ (by omega),
        shiftRight_toNat _ _ (by omega), shiftRight_toNat _ _ (by omega),
        Nat.div_div_eq_div_mul, ← Nat.pow_add, Nat.mul_succ]
    have hlt : (m >>> UInt32.ofNat (5 * (k + 1))).toNat < 2 ^ 25 := by
      rw [hnext, show (5 : UInt32) = UInt32.ofNat 5 from rfl, shiftRight_toNat _ _ (by omega),
        shiftRight_toNat _ _ (by omega)]
      have hle := Nat.div_le_self m.toNat (2 ^ (5 * k))
      omega
    have hvalue : ((m >>> UInt32.ofNat (5 * k)) &&& 31).toUInt8.toUInt32 =
        (m >>> UInt32.ofNat (5 * k)) &&& 31 := by
      apply UInt32.toNat_inj.mp
      have hsmall : ((m >>> UInt32.ofNat (5 * k)) &&& 31).toNat < 2 ^ 5 := and_lt (by decide)
      rw [UInt8.toNat_toUInt32, UInt32.toNat_toUInt8]
      omega
    have hstep := polymodStep_xor x (m >>> UInt32.ofNat (5 * (k + 1)))
      ((m >>> UInt32.ofNat (5 * k)) &&& 31).toUInt8 hlt
    rw [hvalue, hnext, low_parts] at hstep
    simp only [lowValues, List.foldl_cons, List.replicate_succ, hnext, hstep]
    exact ih (by omega) _

/-- The checksum that is made for a constant is the one that is looked for. -/
theorem polymod_checksumValues (values : Str) {constant : UInt32} (hc : constant.toNat < 2 ^ 30) :
    polymod (values ++ checksumValues (polymod (values ++ List.replicate 6 0) ^^^ constant)) =
      constant := by
  have hlt : (polymod (values ++ List.replicate 6 0) ^^^ constant).toNat < 2 ^ 30 := by
    refine xor_lt ?_ hc
    unfold polymod
    rw [List.foldl_append, show List.replicate 6 (0 : UInt8) = List.replicate 5 0 ++ [0] from rfl,
      List.foldl_append]
    exact polymodStep_lt _ _
  have hzero : (polymod (values ++ List.replicate 6 0) ^^^ constant) >>> UInt32.ofNat (5 * 6) =
      0 := by
    apply UInt32.toNat_inj.mp
    rw [shiftRight_toNat _ _ (by decide), Nat.div_eq_of_lt hlt]
    rfl
  have h := foldl_lowValues hlt 6 (by decide) (values.foldl polymodStep 1)
  rw [hzero, UInt32.xor_zero, ← checksumValues_eq, ← List.foldl_append, ← List.foldl_append] at h
  have hmod : (values ++ List.replicate 6 0).foldl polymodStep 1 =
      polymod (values ++ List.replicate 6 0) := rfl
  rw [hmod, ← UInt32.xor_assoc, UInt32.xor_self, UInt32.zero_xor] at h
  exact h

theorem polymod_checksum (hrp dp : Str) :
    polymod (expandHrp hrp ++ (dp ++ createChecksum hrp dp)) = M := by
  rw [← List.append_assoc]
  exact polymod_checksumValues (expandHrp hrp ++ dp) (by decide)

/-- A character of the charset: printable, in lower case, no separator, and read back. -/
theorem letter_spec (v : UInt8) (hv : v ≤ 31) :
    33 ≤ letter v ∧ letter v ≤ 126 ∧ isUpper (letter v) = false ∧
    letter v ≠ separator ∧ charValue (letter v) = v.toNat := by
  have hall : ∀ i : Fin 32, 33 ≤ charset.getD i.val 0 ∧ charset.getD i.val 0 ≤ 126 ∧
      isUpper (charset.getD i.val 0) = false ∧ charset.getD i.val 0 ≠ separator ∧
      charValue (charset.getD i.val 0) = i.val := by decide +kernel
  exact hall ⟨v.toNat, Nat.lt_succ_of_le (UInt8.le_iff_toNat_le.mp hv)⟩

theorem mapToCharset_eq {data : Str} (h : ∀ v ∈ data, v ≤ 31) :
    mapToCharset data = .ok (data.map letter) := by
  induction data with
  | nil => rfl
  | cons v data ih =>
    have hv : ¬ v > 31 := UInt8.not_lt.mpr (h v (by simp))
    simp [mapToCharset, hv, ih (fun w hw => h w (by simp [hw]))]

theorem mapDP_letters {data : Str} (h : ∀ v ∈ data, v ≤ 31) :
    mapDP (data.map letter) = .ok data := by
  induction data with
  | nil => rfl
  | cons v data ih =>
    obtain ⟨-, hle, -, -, hread⟩ := letter_spec v (h v (by simp))
    have hin : ¬ letter v > 127 := UInt8.not_lt.mpr (UInt8.le_trans hle (by decide))
    have hvalid : ¬ (v.toNat : Int) = -1 := by omega
    simp [mapDP, hin, hread, hvalid, ih (fun w hw => h w (by simp [hw]))]

theorem findLastOf_none (h : c ∉ s) : findLastOf c s = none := by
  induction s with
  | nil => rfl
  | cons x s ih =>
    simp only [List.mem_cons, not_or] at h
    simp [findLastOf, ih h.2, Ne.symm h.1]

theorem findLastOf_append (h : c ∉ s) (before : Str) :
    findLastOf c (before ++ c :: s) = some before.length := by
  induction before with
  | nil => simp [findLastOf, findLastOf_none h]
  | cons x before ih => simp [findLastOf, ih]

/-- The last separator parts the text. -/
theorem extracted {text : Str} (h : separator ∉ text) (hrp : Str) :
    extractHumanReadablePart (hrp ++ separator :: text) = hrp ∧
    extractDataPart (hrp ++ separator :: text) = text := by
  unfold extractHumanReadablePart extractDataPart
  rw [findLastOf_append h]
  exact ⟨List.take_left, by simp [List.drop_append]⟩

theorem convertToLowercase_eq (h : ∀ c ∈ s, isUpper c = false) : convertToLowercase s = s := by
  refine (List.map_congr_left (fun c hc => ?_)).trans (List.map_id s)
  have hc' := h c hc
  unfold isUpper at hc'
  simp [asciiLower, hc']

theorem checksumValues_length (mod : UInt32) : (checksumValues mod).length = 6 := by
  simp [checksumValues]

theorem checksumValues_fit (mod : UInt32) : ∀ v ∈ checksumValues mod, v ≤ 31 := by
  intro v hv
  obtain ⟨i, -, rfl⟩ := List.mem_map.mp hv
  have hsmall : ((mod >>> UInt32.ofNat (5 * (5 - i))) &&& 31).toNat < 2 ^ 5 := and_lt (by decide)
  have h31 : (31 : UInt8).toNat = 31 := rfl
  rw [UInt8.le_iff_toNat_le, UInt32.toNat_toUInt8, h31]
  omega

theorem createChecksum_values (hrp dp : Str) :
    (createChecksum hrp dp).length = 6 ∧ ∀ v ∈ createChecksum hrp dp, v ≤ 31 :=
  ⟨checksumValues_length _, checksumValues_fit _⟩

theorem rejectIf_false (text : String) : rejectIf false text = .ok () := rfl

theorem encode_eq (hrp dp : Str) (hne : hrp ≠ []) (hlower : ∀ c ∈ hrp, isUpper c = false)
    (hdp : ∀ v ∈ dp, v ≤ 31) (hlen : hrp.length + dp.length + 7 ≤ 90) :
    encode hrp dp = .ok (hrp ++ separator :: (dp ++ createChecksum hrp dp).map letter) := by
  have hhrp : 0 < hrp.length := List.length_pos_iff.mpr hne
  have hvalues : dp.any (fun c => c > 31 && c < 128) = false := by
    rw [List.any_eq_false]
    intro v hv
    simp [UInt8.not_lt.mpr (hdp v hv)]
  have hall : ∀ v ∈ dp ++ createChecksum hrp dp, v ≤ 31 := by
    intro v hv
    rcases List.mem_append.mp hv with hv | hv
    · exact hdp v hv
    · exact (createChecksum_values hrp dp).2 v hv
  have h83 : ¬ 83 < hrp.length := by omega
  have h90 : ¬ 90 < hrp.length + dp.length + 1 + 6 := by omega
  have h1 : ¬ hrp.length < 1 := by omega
  simp only [encode, encodeBasis, rejectHRPTooShort, rejectHRPTooLong, rejectBothPartsTooLong,
    rejectDataValuesOutOfRange, hvalues, gt_iff_lt, h1, h83, h90, decide_false, rejectIf_false,
    convertToLowercase_eq hlower, mapToCharset_eq hall]
  simp [bind, Except.bind, pure, Except.pure]

/-- A text that is put together from a human readable part and values is well formed. -/
theorem wellFormed {hrp data : Str} (hchars : ∀ c ∈ hrp, 33 ≤ c ∧ c ≤ 126)
    (hlower : ∀ c ∈ hrp, isUpper c = false) (hdata : ∀ v ∈ data, v ≤ 31)
    (hmin : 8 ≤ hrp.length + data.length + 1) (hmax : hrp.length + data.length + 1 ≤ 90) :
    rejectBStringThatIsntWellFormed (hrp ++ separator :: data.map letter) = .ok () := by
  have hlength : (hrp ++ separator :: data.map letter).length = hrp.length + data.length + 1 := by
    simp; omega
  have hshort : ¬ hrp.length + data.length + 1 < 8 := by omega
  have hlong : ¬ 90 < hrp.length + data.length + 1 := by omega
  have hupper : (hrp ++ separator :: data.map letter).any isUpper = false := by
    rw [List.any_eq_false]
    intro c hc
    rw [List.mem_append, List.mem_cons, List.mem_map] at hc
    rcases hc with hc | rfl | ⟨v, hv, rfl⟩
    · simp [hlower c hc]
    · decide
    · simp [(letter_spec v (hdata v hv)).2.2.1]
  have hrange : (hrp ++ separator :: data.map letter).any (fun c => c < 33 || c > 126) = false := by
    rw [List.any_eq_false]
    intro c hc
    have hc' : 33 ≤ c ∧ c ≤ 126 := by
      rw [List.mem_append, List.mem_cons, List.mem_map] at hc
      rcases hc with hc | rfl | ⟨v, hv, rfl⟩
      · exact hchars c hc
      · decide
      · exact ⟨(letter_spec v (hdata v hv)).1, (letter_spec v (hdata v hv)).2.1⟩
    simp [UInt8.not_lt.mpr hc'.1, UInt8.not_lt.mpr hc'.2]
  have hseparator : (hrp ++ separator :: data.map letter).any (· = separator) = true := by simp
  simp only [rejectBStringThatIsntWellFormed, rejectBStringTooShort, rejectBStringTooLong,
    rejectBStringMixedCase, rejectBStringValuesOutOfRange, rejectBStringWithNoSeparator, hlength,
    hshort, gt_iff_lt, hlong, hupper, hseparator, decide_false, Bool.false_and, Bool.not_true,
    rejectIf_false]
  simp only [gt_iff_lt] at hrange
  rw [hrange]
  rfl

/-- Decoding inverts encoding within the limits. -/
theorem decode_encode (hrp dp : Str) (hne : hrp ≠ []) (hchars : ∀ c ∈ hrp, 33 ≤ c ∧ c ≤ 126)
    (hlower : ∀ c ∈ hrp, isUpper c = false) (hdp : ∀ v ∈ dp, v ≤ 31)
    (hlen : hrp.length + dp.length + 7 ≤ 90) :
    ∃ text, encode hrp dp = .ok text ∧ decode text = .ok ⟨.bech32m, hrp, dp⟩ := by
  refine ⟨_, encode_eq hrp dp hne hlower hdp hlen, ?_⟩
  obtain ⟨hsix, hsums⟩ := createChecksum_values hrp dp
  have hvalues : ∀ v ∈ dp ++ createChecksum hrp dp, v ≤ 31 := by
    intro v hv
    rcases List.mem_append.mp hv with hv | hv
    · exact hdp v hv
    · exact hsums v hv
  have hhrp : 0 < hrp.length := List.length_pos_iff.mpr hne
  have hwell := wellFormed hchars hlower hvalues (by simp [hsix]; omega) (by simp [hsix]; omega)
  have hplain : separator ∉ (dp ++ createChecksum hrp dp).map letter := by
    intro hin
    obtain ⟨v, hv, he⟩ := List.mem_map.mp hin
    exact (letter_spec v (hvalues v hv)).2.2.2.1 he
  obtain ⟨hhead, htail⟩ := extracted hplain hrp
  have hverify : verifyChecksum hrp (dp ++ createChecksum hrp dp) = true :=
    decide_eq_true (polymod_checksum hrp dp)
  have hstrip : stripChecksum (dp ++ createChecksum hrp dp) = dp := by simp [stripChecksum, hsix]
  have h83 : ¬ 83 < hrp.length := by omega
  have h1 : ¬ hrp.length < 1 := by omega
  have h6 : ¬ ((dp ++ createChecksum hrp dp).map letter).length < 6 := by simp [hsix]
  simp only [decode, hwell, hhead, htail, rejectHRPTooShort, rejectHRPTooLong, rejectDPTooShort, h1,
    h6, gt_iff_lt, h83, decide_false, rejectIf_false, convertToLowercase_eq hlower,
    mapDP_letters hvalues]
  simp [bind, Except.bind, pure, Except.pure, hverify, hstrip]

end NostrServer.Bech32
