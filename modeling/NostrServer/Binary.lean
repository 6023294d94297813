namespace NostrServer

/-- `std::string`: a sequence of bytes. -/
abbrev Str := List UInt8

/-- A C++ string literal, in UTF-8. -/
def str (s : String) : Str := s.toUTF8.data.toList

structure Binary (n : Nat) where
  bytes : Str
  size : bytes.length = n
deriving DecidableEq

@[ext] theorem Binary.ext {a b : Binary n} (h : a.bytes = b.bytes) : a = b := by
  cases a; cases b; cases h; rfl

def Binary.replicate (n : Nat) (b : UInt8) : Binary n := ⟨List.replicate n b, by simp⟩

/-- `char` is signed: a comparison `c >= limit` with a letter fails from 128 on. -/
def charGe (c limit : UInt8) : Bool := limit ≤ c && c < 128

/-- `(a - '0') - ('A' - '0' - 10) * (a >= 'A') - ('a' - 'A') * (a >= 'a')`, kept
in an `unsigned char`. The characters from ':' to '?' come out as 10 to 15. -/
def hexNibble (a : UInt8) : UInt8 :=
  a - 48 - (if charGe a 65 then 7 else 0) - (if charGe a 97 then 32 else 0)

/-- The loop of `Binary::from_hex`. An odd last character is read and dropped. -/
def fromHexLoop (n : Nat) : Str → Nat → Str → Str
  | a :: b :: rest, ofs, out =>
    if ofs < n then
      if hexNibble a > 0xF then out
      else if hexNibble b > 0xF then out
      else fromHexLoop n rest (ofs + 1) (out.set ofs (hexNibble a <<< 4 ||| hexNibble b))
    else out
  | _, _, out => out

theorem fromHexLoop_length (t : Str) (ofs : Nat) (out : Str) :
    (fromHexLoop n t ofs out).length = out.length := by
  induction t, ofs, out using fromHexLoop.induct n with
  | case1 a b rest ofs out h ha => simp [fromHexLoop, h, ha]
  | case2 a b rest ofs out h ha hb => simp [fromHexLoop, h, ha, hb]
  | case3 a b rest ofs out h ha hb ih => simpa [fromHexLoop, h, ha, hb] using ih
  | case4 a b rest ofs out h => simp [fromHexLoop, h]
  | case5 t ofs out h => cases t with
    | nil => rfl
    | cons a t => cases t with
      | nil => rfl
      | cons b t => exact absurd rfl (h a b t)

/-- `Binary::from_hex`. The array starts uninitialised: `unwritten` is what its
memory held, and shows wherever the text writes no byte. -/
def fromHex (unwritten : Binary n) (text : Str) : Binary n :=
  ⟨fromHexLoop n text 0 unwritten.bytes, by rw [fromHexLoop_length]; exact unwritten.size⟩

/-- The bytes a text spells, up to its first pair that is not made of digits. -/
def spelled : Str → Str
  | a :: b :: rest =>
    if hexNibble a > 0xF then []
    else if hexNibble b > 0xF then []
    else (hexNibble a <<< 4 ||| hexNibble b) :: spelled rest
  | _ => []

/-- `from_hex` writes every byte of an array of `n`. -/
def Written (n : Nat) (text : Str) : Prop := n ≤ (spelled text).length

instance : Decidable (Written n text) := inferInstanceAs (Decidable (n ≤ _))

/-- The loop overwrites from `ofs` on and leaves the rest of the array alone. -/
theorem fromHexLoop_eq (t : Str) (ofs : Nat) (out : Str) (hn : out.length = n) (ho : ofs ≤ n) :
    fromHexLoop n t ofs out =
      out.take ofs ++ (spelled t).take (n - ofs) ++
        out.drop (ofs + min (n - ofs) (spelled t).length) := by
  induction t, ofs, out using fromHexLoop.induct n with
  | case1 a b rest ofs out h ha => simp [fromHexLoop, h, ha, spelled]
  | case2 a b rest ofs out h ha hb => simp [fromHexLoop, h, ha, hb, spelled]
  | case3 a b rest ofs out h ha hb ih =>
    have hs : n - ofs = (n - (ofs + 1)) + 1 := by omega
    have hm : ofs + min (n - ofs) ((spelled rest).length + 1) =
        ofs + 1 + min (n - (ofs + 1)) (spelled rest).length := by omega
    have ht : (out.set ofs (hexNibble a <<< 4 ||| hexNibble b)).take (ofs + 1) =
        out.take ofs ++ [hexNibble a <<< 4 ||| hexNibble b] := by
      rw [List.take_add_one, List.take_set_of_le (Nat.le_refl ofs), List.getElem?_set]
      simp [hn, h]
    simp only [fromHexLoop, h, ha, hb, ↓reduceIte, spelled, List.length_cons]
    rw [ih (by simpa using hn) (by omega), hm, ht, List.drop_set_of_lt (by omega)]
    rw [hs, List.take_succ_cons]
    simp
  | case4 a b rest ofs out h =>
    have he : n - ofs = 0 := by omega
    simp [fromHexLoop, h, he]
  | case5 t ofs out h =>
    have hs : spelled t = [] := by
      cases t with
      | nil => rfl
      | cons a t => cases t with
        | nil => rfl
        | cons b t => exact absurd rfl (h a b t)
    have hl : fromHexLoop n t ofs out = out := by
      cases t with
      | nil => rfl
      | cons a t => cases t with
        | nil => rfl
        | cons b t => exact absurd rfl (h a b t)
    simp [hs, hl]

theorem fromHex_bytes (u : Binary n) (t : Str) :
    (fromHex u t).bytes = (spelled t).take n ++ u.bytes.drop (min n (spelled t).length) := by
  simp [fromHex, fromHexLoop_eq t 0 u.bytes u.size (Nat.zero_le n)]

/-- A text that writes every byte decodes the same whatever the array held. -/
theorem fromHex_written (h : Written n t) (u v : Binary n) : fromHex u t = fromHex v t := by
  apply Binary.ext
  simp only [fromHex_bytes, Nat.min_eq_left h]
  rw [List.drop_of_length_le (by simp [u.size]), List.drop_of_length_le (by simp [v.size])]

/-- One letter of `binary_to_hex`: `a + '0' + ('a' - '0' - 10) * (a > 9)`. -/
def hexLetter (a : UInt8) : UInt8 := a + 48 + (if a > 9 then 39 else 0)

def binaryToHex : Str → Str
  | [] => []
  | v :: rest => hexLetter (v >>> 4) :: hexLetter (v &&& 0xF) :: binaryToHex rest

def Binary.toHex (b : Binary n) : Str := binaryToHex b.bytes

def isHexDigit (c : UInt8) : Bool :=
  (48 ≤ c && c ≤ 57) || (65 ≤ c && c ≤ 70) || (97 ≤ c && c ≤ 102)

def asciiLower (c : UInt8) : UInt8 := if 65 ≤ c && c ≤ 90 then c + 32 else c

/-- The text is the hexadecimal spelling of the array, in either case. -/
def Spells (text : Str) (b : Binary n) : Prop := text.map asciiLower = b.toHex

instance : Decidable (Spells text b) := inferInstanceAs (Decidable (_ = _))

/-- The text is `2 * n` hexadecimal digits and nothing else. -/
def HexText (n : Nat) (text : Str) : Prop := text.length = 2 * n ∧ text.all isHexDigit = true

instance : Decidable (HexText n text) := inferInstanceAs (Decidable (_ ∧ _))

theorem forall_byte {p : UInt8 → Prop} (h : ∀ i : Fin 256, p (UInt8.ofFin i)) (a : UInt8) :
    p a := h a.toFin

set_option maxRecDepth 4000 in
theorem digit_letter (a : UInt8) (h : isHexDigit a = true) :
    hexNibble a ≤ 0xF ∧ hexLetter (hexNibble a) = asciiLower a := by
  revert h
  exact forall_byte (p := fun a => isHexDigit a = true →
    hexNibble a ≤ 0xF ∧ hexLetter (hexNibble a) = asciiLower a) (by decide) a

theorem nibble_cases {x : UInt8} (h : x ≤ 0xF) : ∃ i : Fin 16, x = UInt8.ofNat i := by
  refine ⟨⟨x.toNat, ?_⟩, by simp⟩
  have := UInt8.le_iff_toNat_le.mp h
  simp at this
  omega

/-- A byte put together from two digits comes apart into the same digits. -/
theorem byte_parts {x y : UInt8} (hx : x ≤ 0xF) (hy : y ≤ 0xF) :
    (x <<< 4 ||| y) >>> 4 = x ∧ (x <<< 4 ||| y) &&& 0xF = y := by
  obtain ⟨i, rfl⟩ := nibble_cases hx
  obtain ⟨j, rfl⟩ := nibble_cases hy
  revert i j
  decide +kernel

/-- Hexadecimal digits come back from `to_hex` lower-cased. -/
theorem spelled_hex (t : Str) (k : Nat) (hl : t.length = 2 * k) (hd : t.all isHexDigit = true) :
    (spelled t).length = k ∧ binaryToHex (spelled t) = t.map asciiLower := by
  induction k generalizing t with
  | zero => simp at hl; subst t; exact ⟨rfl, rfl⟩
  | succ k ih =>
    match t, hl with
    | a :: b :: rest, hl =>
      simp only [List.all_cons, Bool.and_eq_true] at hd
      obtain ⟨ha, hea⟩ := digit_letter a hd.1
      obtain ⟨hb, heb⟩ := digit_letter b hd.2.1
      obtain ⟨hn, he⟩ := ih rest (by simp at hl; omega) hd.2.2
      obtain ⟨hhi, hlo⟩ := byte_parts ha hb
      simp only [spelled, UInt8.not_lt.mpr ha, UInt8.not_lt.mpr hb, ↓reduceIte,
        List.length_cons, hn, binaryToHex, hhi, hlo, hea, heb, he, List.map_cons, and_self]

theorem HexText.written (h : HexText n t) : Written n t :=
  Nat.le_of_eq (spelled_hex t n h.1 h.2).1.symm

theorem letter_injective : ∀ i j : Fin 16,
    hexLetter (UInt8.ofNat i) = hexLetter (UInt8.ofNat j) → i = j := by
  decide

theorem halves (v : UInt8) :
    v >>> 4 ≤ 0xF ∧ v &&& 0xF ≤ 0xF ∧ (v >>> 4) <<< 4 ||| (v &&& 0xF) = v := by
  exact forall_byte (p := fun v => v >>> 4 ≤ 0xF ∧ v &&& 0xF ≤ 0xF ∧
    (v >>> 4) <<< 4 ||| (v &&& 0xF) = v) (by decide +kernel) v

theorem byte_of_letters {x y : UInt8} (hh : hexLetter (x >>> 4) = hexLetter (y >>> 4))
    (hl : hexLetter (x &&& 0xF) = hexLetter (y &&& 0xF)) : x = y := by
  obtain ⟨hx, hx', hxe⟩ := halves x
  obtain ⟨hy, hy', hye⟩ := halves y
  obtain ⟨i, hi⟩ := nibble_cases hx
  obtain ⟨j, hj⟩ := nibble_cases hy
  obtain ⟨k, hk⟩ := nibble_cases hx'
  obtain ⟨l, hl'⟩ := nibble_cases hy'
  rw [hi, hj] at hh
  rw [hk, hl'] at hl
  rw [← hxe, ← hye, hi, hj, hk, hl', letter_injective i j hh, letter_injective k l hl]

theorem binaryToHex_injective {a b : Str} (h : binaryToHex a = binaryToHex b) : a = b := by
  induction a generalizing b with
  | nil => cases b <;> simp_all [binaryToHex]
  | cons x a ih =>
    cases b with
    | nil => simp [binaryToHex] at h
    | cons y b =>
      simp only [binaryToHex, List.cons.injEq] at h
      rw [ih h.2.2, byte_of_letters h.1 h.2.1]

theorem Binary.toHex_injective {a b : Binary n} (h : a.toHex = b.toHex) :
    a = b := Binary.ext (binaryToHex_injective h)

/-- On a text of hexadecimal digits, decoding to an array and spelling it are one. -/
theorem fromHex_eq_iff (h : HexText n t) (u b : Binary n) : fromHex u t = b ↔ Spells t b := by
  obtain ⟨hl, he⟩ := spelled_hex t n h.1 h.2
  have hb : (fromHex u t).bytes = spelled t := by
    rw [fromHex_bytes, hl, Nat.min_self, List.drop_of_length_le (by simp [u.size]),
      List.take_of_length_le (by omega), List.append_nil]
  constructor
  · rintro rfl
    rw [Spells, Binary.toHex, hb, he]
  · intro hs
    apply Binary.ext
    rw [hb]
    exact binaryToHex_injective (he.trans hs)

/-- The text names the array: it writes every byte, with these. -/
def Names (text : Str) (b : Binary n) : Prop := Written n text ∧ ∀ u, fromHex u text = b

theorem binaryToHex_digits (a : Str) :
    (binaryToHex a).length = 2 * a.length ∧ (binaryToHex a).all isHexDigit = true := by
  induction a with
  | nil => simp [binaryToHex]
  | cons v a ih =>
    have hv := forall_byte (p := fun v => isHexDigit (hexLetter (v >>> 4)) = true ∧
      isHexDigit (hexLetter (v &&& 0xF)) = true) (by decide +kernel) v
    simp only [binaryToHex, List.length_cons, List.all_cons, hv.1, hv.2, ih.2, ih.1,
      Bool.and_self, and_true]
    omega

theorem binaryToHex_lower (a : Str) : (binaryToHex a).map asciiLower = binaryToHex a := by
  induction a with
  | nil => rfl
  | cons v a ih =>
    have hv := forall_byte (p := fun v => asciiLower (hexLetter (v >>> 4)) = hexLetter (v >>> 4) ∧
      asciiLower (hexLetter (v &&& 0xF)) = hexLetter (v &&& 0xF)) (by decide +kernel) v
    simp only [binaryToHex, List.map_cons, hv.1, hv.2, ih]

theorem Binary.spells_toHex (b : Binary n) : Spells b.toHex b := binaryToHex_lower b.bytes

theorem digit_of_lower (c : UInt8) : isHexDigit (asciiLower c) = true → isHexDigit c = true :=
  forall_byte (p := fun c => isHexDigit (asciiLower c) = true → isHexDigit c = true)
    (by decide +kernel) c

theorem Spells.hexText {b : Binary n} (h : Spells text b) : HexText n text := by
  obtain ⟨hl, hd⟩ := binaryToHex_digits b.bytes
  rw [b.size] at hl
  have he : text.map asciiLower = binaryToHex b.bytes := h
  refine ⟨by rw [← hl, ← he, List.length_map],
    List.all_eq_true.mpr (fun c hc => digit_of_lower c ?_)⟩
  rw [← he] at hd
  exact List.all_eq_true.mp hd _ (List.mem_map_of_mem hc)

/-- A spelling names what it spells. -/
theorem Spells.names {b : Binary n} (h : Spells text b) : Names text b :=
  ⟨h.hexText.written, fun u => (fromHex_eq_iff h.hexText u b).mpr h⟩

end NostrServer
