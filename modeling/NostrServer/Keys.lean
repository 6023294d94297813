import NostrServer.Bech32
import NostrServer.Lib.Regrouping

namespace NostrServer

open Positional Words

/-- The masks of `convert_bits`: the low `n` bits. -/
def bitMask (n : Nat) : UInt32 := ~~~((~~~(0 : UInt32)) <<< UInt32.ofNat n)

/-- The inner loop of `convert_bits`: what it passes on, and `sz` after it. Both widths
are positive where it is used. -/
def emitBits (target : Nat) (accum : UInt32) (sz : Nat) : List UInt32 × Nat :=
  if 0 < target ∧ target ≤ sz then
    let b := accum >>> UInt32.ofNat (sz - target) &&& bitMask target
    let (bs, sz) := emitBits target accum (sz - target)
    (b :: bs, sz)
  else ([], sz)
termination_by sz

/-- The loop of `convert_bits` and the flush after it. The accumulator keeps every bit
until it is shifted out. -/
def convertBitsLoop (width target : Nat) : Str → UInt32 → Nat → List UInt32
  | [], accum, sz =>
    if target < width ∧ sz ≠ 0 then [accum <<< UInt32.ofNat (target - sz) &&& bitMask target]
    else []
  | c :: input, accum, sz =>
    let val := c.toUInt32 &&& bitMask width
    let accum := accum <<< UInt32.ofNat width ||| val
    let (bs, sz) := emitBits target accum (sz + width)
    bs ++ convertBitsLoop width target input accum sz

/-- `convert_bits`: what its callback is called with. -/
def convertBits (width target : Nat) (input : Str) : List UInt32 :=
  convertBitsLoop width target input 0 0

theorem bitMask_toNat (n : Nat) (h : n < 32) : (bitMask n).toNat = 2 ^ n - 1 :=
  (show ∀ k : Fin 32, (bitMask k.val).toNat = 2 ^ k.val - 1 by decide +kernel) ⟨n, h⟩

theorem masked_toNat (x : UInt32) (n : Nat) (h : n < 32) :
    (x &&& bitMask n).toNat = x.toNat % 2 ^ n := by
  rw [UInt32.toNat_and, bitMask_toNat n h, Nat.and_two_pow_sub_one_eq_mod]

def values (ws : List UInt32) : List Nat := ws.map UInt32.toNat

/-- What `convert_bits` reads of its input. -/
def digits (width : Nat) (input : Str) : List Nat := input.map (fun c => c.toNat % 2 ^ width)

/-- The inner loop makes digits until too few bits are left over for one. -/
theorem emitBits_spec {width target sz : Nat} {accum : UInt32} {taken made : List Nat}
    (ht : 0 < target) (hsz : sz < 32) (ha : accum.toNat = value (2 ^ width) taken % 2 ^ 32)
    (h : Regrouping width target taken made sz) :
    Regrouping width target taken (made ++ values (emitBits target accum sz).1)
      (emitBits target accum sz).2 ∧
    (emitBits target accum sz).2 < target := by
  induction sz using Nat.strong_induction_on generalizing made with
  | _ sz ih =>
    unfold emitBits
    split
    · rename_i hmore
      have hleft : sz = sz - target + target := by omega
      have hdigit : (accum >>> UInt32.ofNat (sz - target) &&& bitMask target).toNat =
          value (2 ^ width) taken / 2 ^ (sz - target) % 2 ^ target := by
        rw [masked_toNat _ _ (by omega), shiftRight_toNat _ _ (by omega), ha,
          low_bits _ _ _ (by omega)]
      have hnext := (hleft ▸ h).made_snoc
      rw [← hdigit] at hnext
      obtain ⟨hrest, hlast⟩ := ih (sz - target) (by omega) (by omega) hnext
      refine ⟨?_, hlast⟩
      simpa [values, List.append_assoc] using hrest
    · exact ⟨by simpa [values] using h, by omega⟩

/-- After a value is read, its digit counts. -/
theorem Regrouping.next {width target sz : Nat} {accum : UInt32} {taken made : List Nat} (c : UInt8)
    (hw : width < 32) (ha : accum.toNat = value (2 ^ width) taken % 2 ^ 32)
    (h : Regrouping width target taken made sz) :
    (accum <<< UInt32.ofNat width ||| (c.toUInt32 &&& bitMask width)).toNat =
      value (2 ^ width) (taken ++ [c.toNat % 2 ^ width]) % 2 ^ 32 ∧
    Regrouping width target (taken ++ [c.toNat % 2 ^ width]) made (sz + width) := by
  have hval : (c.toUInt32 &&& bitMask width).toNat = c.toNat % 2 ^ width := by
    rw [masked_toNat _ _ hw, UInt8.toNat_toUInt32]
  have hlow : c.toNat % 2 ^ width < 2 ^ width := Nat.mod_lt _ (Nat.two_pow_pos width)
  refine ⟨?_, h.taken_snoc hlow⟩
  rw [shiftLeft_or_toNat accum _ _ width hw ha (hval ▸ hlow), hval, value_snoc]

/-- What the flush adds to the digits made: nothing, or the bits left over. -/
def flushed (width target v left : Nat) : List Nat :=
  if target < width ∧ left ≠ 0 then [v * 2 ^ (target - left) % 2 ^ target] else []

theorem convertBitsLoop_spec {width target : Nat} (hw : 0 < width) (ht : 0 < target)
    (hsum : width + target ≤ 32) (input : Str) {sz : Nat} {accum : UInt32} {taken made : List Nat}
    (hsz : sz < target) (ha : accum.toNat = value (2 ^ width) taken % 2 ^ 32)
    (h : Regrouping width target taken made sz) :
    ∃ made' left, left < target ∧ Regrouping width target (taken ++ digits width input) made' left ∧
      made ++ values (convertBitsLoop width target input accum sz) =
        made' ++ flushed width target (value (2 ^ width) (taken ++ digits width input)) left := by
  induction input generalizing sz accum taken made with
  | nil =>
    refine ⟨made, sz, hsz, by simpa [digits] using h, ?_⟩
    unfold convertBitsLoop flushed
    split
    · have hlast : (accum <<< UInt32.ofNat (target - sz) &&& bitMask target).toNat =
          value (2 ^ width) taken * 2 ^ (target - sz) % 2 ^ target := by
        rw [masked_toNat _ _ (by omega), shiftLeft_toNat _ _ (by omega),
          Nat.mod_mod_of_dvd _ (Nat.pow_dvd_pow 2 (by omega)), ha, Nat.mul_mod,
          Nat.mod_mod_of_dvd _ (Nat.pow_dvd_pow 2 (by omega)), ← Nat.mul_mod]
      simp [values, digits, hlast]
    · simp [values]
  | cons c input ih =>
    obtain ⟨ha', h'⟩ := Regrouping.next c (by omega) ha h
    obtain ⟨hmade, hleft⟩ := emitBits_spec ht (by omega) ha' h'
    obtain ⟨made', left, hlt, hall, hsame⟩ := ih hleft ha' hmade
    refine ⟨made', left, hlt, by simpa [digits] using hall, ?_⟩
    have hdigits : taken ++ digits width (c :: input) =
        taken ++ [c.toNat % 2 ^ width] ++ digits width input := by
      simp [digits]
    rw [hdigits, ← hsame]
    simp [convertBitsLoop, values]

theorem convertBits_spec {width target : Nat} (hw : 0 < width) (ht : 0 < target)
    (hsum : width + target ≤ 32) (input : Str) :
    ∃ made left, left < target ∧ Regrouping width target (digits width input) made left ∧
      values (convertBits width target input) =
        made ++ flushed width target (value (2 ^ width) (digits width input)) left := by
  obtain ⟨made, left, hlt, hall, hsame⟩ := convertBitsLoop_spec hw ht hsum input ht
    (show (0 : UInt32).toNat = value (2 ^ width) [] % 2 ^ 32 by simp) Regrouping.nil
  exact ⟨made, left, hlt, hall, hsame⟩

/-- To fewer bits, the digits of all the input with zeros after them. -/
theorem convertBits_padded {width target : Nat} (ht : 0 < target) (hless : target < width)
    (hsum : width + target ≤ 32) (input : Str) : ∃ pad, pad < target ∧
      Padded width target (digits width input) (values (convertBits width target input)) pad := by
  obtain ⟨made, left, hlt, hall, hsame⟩ := convertBits_spec (Nat.zero_lt_of_lt hless) ht hsum input
  rw [hsame]
  by_cases hzero : left = 0
  · subst hzero
    exact ⟨0, ht, by simpa [flushed] using hall.padded⟩
  · refine ⟨target - left, by omega, ?_⟩
    simpa [flushed, hless, hzero] using hall.padded_snoc (Nat.le_of_lt hlt)

/-- To more bits, what is left over at the end is dropped. -/
theorem convertBits_regrouped {width target : Nat} (hw : 0 < width) (hmore : width ≤ target)
    (hsum : width + target ≤ 32) (input : Str) : ∃ left, left < target ∧
      Regrouping width target (digits width input)
        (values (convertBits width target input)) left := by
  obtain ⟨made, left, hlt, hall, hsame⟩ :=
    convertBits_spec hw (Nat.lt_of_lt_of_le hw hmore) hsum input
  rw [hsame]
  exact ⟨left, hlt, by simpa [flushed, Nat.not_lt.mpr hmore] using hall⟩

def asChars (ws : List UInt32) : Str := ws.map UInt32.toUInt8

theorem digits_asChars (h : ∀ d ∈ values ws, d < 2 ^ t) (ht : t ≤ 8) :
    digits t (asChars ws) = values ws := by
  unfold digits asChars values
  rw [List.map_map]
  apply List.map_congr_left
  intro w hw
  have hlt : w.toNat < 2 ^ t := h _ (List.mem_map.mpr ⟨w, hw, rfl⟩)
  have hle : (2 : Nat) ^ t ≤ 2 ^ 8 := Nat.pow_le_pow_right (by decide) ht
  simp only [Function.comp_apply, UInt32.toNat_toUInt8]
  rw [Nat.mod_eq_of_lt (Nat.lt_of_lt_of_le hlt hle), Nat.mod_eq_of_lt hlt]

theorem digits_bytes (bytes : Str) : digits 8 bytes = bytes.map UInt8.toNat :=
  List.map_congr_left (fun c _ => Nat.mod_eq_of_lt c.toNat_lt)

theorem convertBits_fits {t : Nat} (ht : 0 < t) (h8 : t < 8) (bytes : Str) :
    ∀ d ∈ values (convertBits 8 t bytes), d < 2 ^ t := by
  obtain ⟨pad, -, h⟩ := convertBits_padded ht h8 (by omega) bytes
  exact h.fits

/-- Bytes made into smaller values come back from them, and nothing after them. -/
theorem convertBits_back {t : Nat} (ht : 0 < t) (h8 : t < 8) (bytes : Str) :
    convertBits t 8 (asChars (convertBits 8 t bytes)) = bytes.map UInt8.toUInt32 := by
  obtain ⟨pad, hpad, hthere⟩ := convertBits_padded ht h8 (by omega) bytes
  obtain ⟨left, hleft, hback⟩ :=
    convertBits_regrouped ht (Nat.le_of_lt h8) (by omega) (asChars (convertBits 8 t bytes))
  rw [digits_asChars hthere.fits (Nat.le_of_lt h8)] at hback
  have hbytes : ∀ d ∈ digits 8 bytes, d < 2 ^ 8 := by
    rw [digits_bytes]
    intro d hd
    obtain ⟨c, -, rfl⟩ := List.mem_map.mp hd
    exact c.toNat_lt
  have hsame := hthere.regrouped (by omega) hbytes hback hleft
  have hnat : (convertBits t 8 (asChars (convertBits 8 t bytes))).map UInt32.toNat =
      (bytes.map UInt8.toUInt32).map UInt32.toNat := by
    rw [List.map_map]
    exact hsame.trans (digits_bytes bytes)
  exact (List.map_inj_right (fun _ _ => UInt32.toNat_inj.mp)).mp hnat

theorem asChars_bytes (bytes : Str) : asChars (bytes.map UInt8.toUInt32) = bytes := by
  unfold asChars
  rw [List.map_map]
  exact (List.map_congr_left (fun c _ => UInt8.toNat_inj.mp (by simp))).trans (List.map_id bytes)

namespace SignatureTools

/-- The callback that fills an array: what comes after its end is dropped. -/
def fillLoop (n : Nat) : Str → Nat → Str → Str
  | [], _, out => out
  | c :: cs, pos, out => if pos < n then fillLoop n cs (pos + 1) (out.set pos c)
    else fillLoop n cs pos out

theorem fillLoop_length (cs : Str) (pos : Nat) (out : Str) :
    (fillLoop n cs pos out).length = out.length := by
  induction cs generalizing pos out with
  | nil => rfl
  | cons c cs ih =>
    unfold fillLoop
    split <;> simp [ih]

def fill (unwritten : Binary n) (cs : Str) : Binary n :=
  ⟨fillLoop n cs 0 unwritten.bytes, by rw [fillLoop_length]; exact unwritten.size⟩

theorem fillLoop_eq (cs before after : Str) (hn : before.length + cs.length ≤ n)
    (hl : cs.length ≤ after.length) :
    fillLoop n cs before.length (before ++ after) = before ++ cs ++ after.drop cs.length := by
  induction cs generalizing before after with
  | nil => simp [fillLoop]
  | cons c cs ih =>
    obtain ⟨a, after, rfl⟩ :=
      List.exists_cons_of_length_pos (Nat.lt_of_lt_of_le (Nat.zero_lt_succ _) hl)
    simp only [List.length_cons] at hn hl
    have hset : (before ++ a :: after).set before.length c = before ++ [c] ++ after := by simp
    have hnext := ih (before ++ [c]) after (by simp; omega) (by omega)
    rw [List.length_append, List.length_singleton] at hnext
    rw [fillLoop, if_pos (by omega), hset, hnext]
    simp

/-- As many characters as the array has places are its bytes. -/
theorem fill_bytes (unwritten b : Binary n) : fill unwritten b.bytes = b := by
  have h := fillLoop_eq (n := n) b.bytes [] unwritten.bytes (by simp [b.size])
    (by simp [b.size, unwritten.size])
  have hnone : unwritten.bytes.drop b.bytes.length = [] :=
    List.drop_eq_nil_of_le (by simp [b.size, unwritten.size])
  rw [hnone, List.append_nil] at h
  exact Binary.ext h

abbrev PrivateKey := Binary 32

abbrev PublicKey := Binary 32

def toHex : Str → Str
  | [] => []
  | c :: content =>
    let hexletters := str "0123456789abcdef"
    hexletters.getD (c >>> 4).toNat 0 :: hexletters.getD (c &&& 0xF).toNat 0 :: toHex content

def isSpace (c : UInt8) : Bool := c = 32 || (9 ≤ c && c ≤ 13)

def digitValue (c : UInt8) : Nat :=
  if c ≤ 57 then c.toNat - 48 else if c ≤ 70 then c.toNat - 55 else c.toNat - 87

/-- `std::stoi` in base 16 on a text that ends at its first zero: blanks, a sign and `0x`
may come before the digits, and there has to be one. -/
def stoi16 (s : Str) : Except Str Int :=
  let t := (s.takeWhile (· ≠ 0)).dropWhile isSpace
  let (negative, t) := match t with
    | 45 :: t => (true, t)
    | 43 :: t => (false, t)
    | t => (false, t)
  let t := match t with
    | 48 :: x :: d :: t => if (x = 120 || x = 88) && isHexDigit d then d :: t else 48 :: x :: d :: t
    | t => t
  let digits := t.takeWhile isHexDigit
  if digits.isEmpty then .error (str "stoi")
  else
    let v : Int := digits.foldl (fun (v : Int) c => v * 16 + digitValue c) 0
    .ok (if negative then -v else v)

/-- `hexToBytes`. The last digit of a text of odd length is taken with whatever comes after
the text in memory. -/
def hexToBytes (beyond : UInt8) : Str → Except Str Str
  | [] => .ok []
  | [a] =>
    match stoi16 [a, beyond] with
    | .ok v => .ok [UInt8.ofInt v]
    | .error e => .error e
  | a :: b :: hexString =>
    match stoi16 [a, b] with
    | .error e => .error e
    | .ok v =>
      match hexToBytes beyond hexString with
      | .ok bytes => .ok (UInt8.ofInt v :: bytes)
      | .error e => .error e

def toBech32 (beyond : UInt8) (hex type : Str) : Except Str Str := do
  let data ← hexToBytes beyond hex
  Bech32.encode type (asChars (convertBits 8 5 data))

def toNpub (unwritten : PublicKey) (beyond : UInt8) (publicKey : Str) : Except Str Str := do
  let data ← hexToBytes beyond publicKey
  let key := fill unwritten data
  Bech32.encode (str "npub") (asChars (convertBits 8 5 key.bytes))

def toNsec (key : PrivateKey) : Except Str Str :=
  Bech32.encode (str "nsec") (asChars (convertBits 8 5 key.bytes))

/-- `SignatureTools::from_nsec`: whether it succeeds, and the key. -/
def fromNsec (nsec : Str) (pk : PrivateKey) : Except Str (Bool × PrivateKey) := do
  let r ← Bech32.decode nsec
  if r.encoding = .invalid then return (false, pk)
  if r.hrp ≠ str "nsec" then return (false, pk)
  return (true, fill pk (asChars (convertBits 5 8 r.dp)))

def fromBech32 (unwritten : PublicKey) (bech cat : Str) : Except Str Str := do
  let r ← Bech32.decode bech
  if r.encoding = .invalid then return []
  if r.hrp ≠ cat then return []
  return toHex (fill unwritten (asChars (convertBits 5 8 r.dp))).bytes

def fromNpub (unwritten : PublicKey) (npub : Str) : Except Str Str :=
  fromBech32 unwritten npub (str "npub")

theorem lower_letters : ∀ i j : Fin 16,
    stoi16 [hexLetter (UInt8.ofNat i), hexLetter (UInt8.ofNat j)] = .ok (16 * i.val + j.val) := by
  decide +kernel

/-- A byte is read back from its two digits. -/
theorem stoi16_byte (v : UInt8) :
    stoi16 [hexLetter (v >>> 4), hexLetter (v &&& 0xF)] = .ok v.toNat := by
  obtain ⟨hhigh, hlow, hsame⟩ := halves v
  obtain ⟨i, hi⟩ := nibble_cases hhigh
  obtain ⟨j, hj⟩ := nibble_cases hlow
  have hnat : ∀ i j : Fin 16,
      (UInt8.ofNat i <<< 4 ||| UInt8.ofNat j).toNat = 16 * i.val + j.val := by decide +kernel
  rw [hi, hj, lower_letters]
  rw [hi, hj] at hsame
  rw [← hsame, hnat]
  norm_cast

theorem hexToBytes_toHex (beyond : UInt8) (bytes : Str) :
    hexToBytes beyond (binaryToHex bytes) = .ok bytes := by
  induction bytes with
  | nil => rfl
  | cons v bytes ih =>
    have hv : UInt8.ofInt v.toNat = v := by
      have hlt := v.toNat_lt
      have hmod : ((v.toNat : Int) % 2 ^ 8).toNat = v.toNat := by omega
      rw [UInt8.ofInt, hmod, UInt8.ofNat_toNat]
    simp only [binaryToHex, hexToBytes, stoi16_byte, ih, hv]

/-- The table's letters are those of `binary_to_hex`. -/
theorem toHex_eq (content : Str) : toHex content = binaryToHex content := by
  have hletter (x : UInt8) (h : x ≤ 0xF) :
      (str "0123456789abcdef").getD x.toNat 0 = hexLetter x := by
    obtain ⟨i, rfl⟩ := nibble_cases h
    revert i
    decide +kernel
  induction content with
  | nil => rfl
  | cons c content ih =>
    obtain ⟨hhigh, hlow, -⟩ := halves c
    simp only [toHex, hletter _ hhigh, hletter _ hlow, ih, binaryToHex]

/-- A text of `2 * n` lower-case digits is the spelling of an array. -/
theorem exists_toHex (hlen : h.length = 2 * n)
    (hdigits : ∀ c ∈ h, (48 ≤ c ∧ c ≤ 57) ∨ (97 ≤ c ∧ c ≤ 102)) :
    ∃ b : Binary n, b.toHex = h := by
  have hhex : HexText n h := by
    refine ⟨hlen, List.all_eq_true.mpr (fun c hc => ?_)⟩
    unfold isHexDigit
    rcases hdigits c hc with hd | hd <;> simp [hd]
  have hlower : h.map asciiLower = h := by
    refine (List.map_congr_left (fun c hc => ?_)).trans (List.map_id h)
    have hnot : ¬ (65 ≤ c ∧ c ≤ 90) := by
      simp only [UInt8.le_iff_toNat_le, UInt8.reduceToNat] at hdigits ⊢
      have hc' := hdigits c hc
      omega
    simp [asciiLower, hnot]
  have hspells := (fromHex_eq_iff hhex (Binary.replicate n 0) _).mp rfl
  exact ⟨_, (hspells.symm.trans hlower)⟩

/-- What is encoded from an array comes back in its place, whatever was there. -/
theorem decode_key (hrp : Str) (hne : hrp ≠ []) (hchars : ∀ c ∈ hrp, 33 ≤ c ∧ c ≤ 126)
    (hlower : ∀ c ∈ hrp, Bech32.isUpper c = false) (hlen : hrp.length ≤ 31) (key : Binary 32) :
    ∃ text dp, Bech32.encode hrp (asChars (convertBits 8 5 key.bytes)) = .ok text ∧
      Bech32.decode text = .ok ⟨.bech32m, hrp, dp⟩ ∧
      ∀ pk : Binary 32, fill pk (asChars (convertBits 5 8 dp)) = key := by
  have hfits := convertBits_fits (t := 5) (by decide) (by decide) key.bytes
  have hsmall : ∀ v ∈ asChars (convertBits 8 5 key.bytes), v ≤ 31 := by
    intro v hv
    obtain ⟨w, hw, rfl⟩ := List.mem_map.mp hv
    have hlt : w.toNat < 2 ^ 5 := hfits _ (List.mem_map.mpr ⟨w, hw, rfl⟩)
    have h31 : (31 : UInt8).toNat = 31 := rfl
    rw [UInt8.le_iff_toNat_le, UInt32.toNat_toUInt8, h31]
    omega
  have hlength : (asChars (convertBits 8 5 key.bytes)).length ≤ 52 := by
    obtain ⟨pad, hpad, h⟩ :=
      convertBits_padded (show 0 < 5 by decide) (show 5 < 8 by decide) (by decide) key.bytes
    have hbits := h.bits
    simp only [values, digits, List.length_map, key.size] at hbits
    simp only [asChars, List.length_map]
    omega
  obtain ⟨text, henc, hdec⟩ := Bech32.decode_encode hrp _ hne hchars hlower hsmall (by omega)
  refine ⟨text, _, henc, hdec, fun pk => ?_⟩
  rw [convertBits_back (by decide) (by decide), asChars_bytes, fill_bytes]

/-- The text of any type of an array's digits is read back as these digits. -/
theorem toBech32_back (type : Str) (hne : type ≠ []) (hchars : ∀ c ∈ type, 33 ≤ c ∧ c ≤ 126)
    (hlower : ∀ c ∈ type, Bech32.isUpper c = false) (hlen : type.length ≤ 31)
    (key unwritten : PublicKey) (beyond : UInt8) :
    ∃ text, toBech32 beyond key.toHex type = .ok text ∧
      fromBech32 unwritten text type = .ok key.toHex := by
  obtain ⟨text, dp, henc, hdec, hfill⟩ := decode_key type hne hchars hlower hlen key
  refine ⟨text, ?_, ?_⟩
  · simp [toBech32, Binary.toHex, hexToBytes_toHex, henc, bind, Except.bind]
  · simp [fromBech32, hdec, hfill, toHex_eq, Binary.toHex, bind, Except.bind, pure, Except.pure]

/-- An array's digits fill the key of `to_npub`. -/
theorem toNpub_toHex (key unwritten : PublicKey) (beyond : UInt8) :
    toNpub unwritten beyond key.toHex = toBech32 beyond key.toHex (str "npub") := by
  simp [toNpub, toBech32, Binary.toHex, hexToBytes_toHex, fill_bytes, bind, Except.bind]

/-- Bytes regrouped to five bits and back are the same bytes, and so are keys through
their `nsec` and `npub` texts. -/
theorem keys_round_trip :
    (∀ bytes : Str, (∀ v ∈ convertBits 8 5 bytes, v < 32) ∧
      convertBits 5 8 (asChars (convertBits 8 5 bytes)) = bytes.map UInt8.toUInt32) ∧
    (∀ key pk : PrivateKey, ∃ nsec, toNsec key = .ok nsec ∧ fromNsec nsec pk = .ok (true, key)) ∧
    ∀ (hex : Str) (unwritten unwritten' : PublicKey) (beyond : UInt8), hex.length = 64 →
      (∀ c ∈ hex, (48 ≤ c ∧ c ≤ 57) ∨ (97 ≤ c ∧ c ≤ 102)) →
      ∃ npub, toNpub unwritten beyond hex = .ok npub ∧ fromNpub unwritten' npub = .ok hex := by
  refine ⟨fun bytes => ⟨fun v hv => ?_, convertBits_back (by decide) (by decide) bytes⟩,
    fun key pk => ?_, ?_⟩
  · exact UInt32.lt_iff_toNat_lt.mpr
      (convertBits_fits (by decide) (by decide) bytes _ (List.mem_map.mpr ⟨v, hv, rfl⟩))
  · obtain ⟨nsec, dp, henc, hdec, hfill⟩ :=
      decode_key (str "nsec") (by decide) (by decide +kernel) (by decide +kernel)
      (by decide) key
    exact ⟨nsec, henc, by simp [fromNsec, hdec, hfill, bind, Except.bind, pure, Except.pure]⟩
  · intro hex unwritten unwritten' beyond hlen hdigits
    obtain ⟨key, rfl⟩ := exists_toHex (n := 32) hlen hdigits
    rw [toNpub_toHex]
    exact toBech32_back (str "npub") (by decide) (by decide +kernel) (by decide +kernel) (by decide)
      key unwritten' beyond

def sampleHex : Str := str "7e7e9c42a91bfef19fa929e5fda1b72e0ebc1a4c1141673e2794234d86addf4e"

theorem sample_key_back : ∃ npub, toNpub (Binary.replicate 32 0) 0 sampleHex = .ok npub ∧
    fromNpub (Binary.replicate 32 0) npub = .ok sampleHex :=
  keys_round_trip.2.2 sampleHex _ _ 0 (by decide +kernel) (by decide +kernel)

end SignatureTools

end NostrServer
