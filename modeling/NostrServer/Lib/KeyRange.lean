import NostrServer.Lib.Storage
import Mathlib.Algebra.Group.Int.Defs
import Mathlib.Algebra.Group.Nat.Defs

namespace Docdb

structure Row (V : Type) where
  key : List UInt8
  id : DocID
  value : V

/-- An index holds the rows its function emits for the stored documents. -/
def indexRows (emit : Doc → List (List UInt8 × V)) (rs : Records Doc) : List (Row V) :=
  rs.flatMap (fun r => (emit r.2).map (fun kv => ⟨kv.1, r.1, kv.2⟩))

theorem mem_indexRows {emit : Doc → List (List UInt8 × V)} {rs : Records Doc} :
    row ∈ indexRows emit rs ↔ ∃ d, (row.id, d) ∈ rs ∧ (row.key, row.value) ∈ emit d := by
  simp only [indexRows, List.mem_flatMap, List.mem_map]
  constructor
  · rintro ⟨r, hr, kv, hkv, rfl⟩
    exact ⟨r.2, hr, hkv⟩
  · rintro ⟨d, hd, hkv⟩
    exact ⟨(row.id, d), hd, (row.key, row.value), hkv, rfl⟩

/-- The key lies between the bounds, both included; a bound that is a leading part
of the key counts as equal to it. -/
def between (lo hi key : List UInt8) : Bool :=
  decide (lo ≤ key.take lo.length) && decide (key.take hi.length ≤ hi)

def selectBetween (rows : List (Row V)) (lo hi : List UInt8) : List (Row V) :=
  rows.filter (fun row => between lo hi row.key)

/-- Keys with heads of one length compare by their heads first. -/
theorem append_le_iff {a b x y : List UInt8} (hl : a.length = b.length) :
    a ++ x ≤ b ++ y ↔ a < b ∨ a = b ∧ x ≤ y := by
  induction a generalizing b with
  | nil =>
    cases b with
    | nil => simp
    | cons => simp at hl
  | cons u a ih =>
    cases b with
    | nil => simp at hl
    | cons v b =>
      rw [List.cons_append, List.cons_append, List.cons_le_cons_iff, List.cons_lt_cons_iff,
        ih (by simpa using hl)]
      simp only [List.cons.injEq]
      constructor
      · rintro (h | ⟨h, h' | ⟨h', h''⟩⟩)
        · exact Or.inl (Or.inl h)
        · exact Or.inl (Or.inr ⟨h, h'⟩)
        · exact Or.inr ⟨⟨h, h'⟩, h''⟩
      · rintro ((h | ⟨h, h'⟩) | ⟨⟨h, h'⟩, h''⟩)
        · exact Or.inl h
        · exact Or.inr ⟨h, Or.inl h'⟩
        · exact Or.inr ⟨h, Or.inr ⟨h', h''⟩⟩

/-- A range under one leading field selects that field and the range of the rest. -/
theorem between_field {p a lo hi x : List UInt8} (hp : p.length = a.length)
    (hlo : lo.length = x.length) (hhi : hi.length = x.length) :
    between (p ++ lo) (p ++ hi) (a ++ x) = true ↔ a = p ∧ lo ≤ x ∧ x ≤ hi := by
  have h1 : (a ++ x).take (p ++ lo).length = a ++ x := List.take_of_length_le (by simp; omega)
  have h2 : (a ++ x).take (p ++ hi).length = a ++ x := List.take_of_length_le (by simp; omega)
  simp only [between, h1, h2, Bool.and_eq_true, decide_eq_true_eq, append_le_iff hp,
    append_le_iff hp.symm]
  constructor
  · rintro ⟨h | ⟨rfl, h⟩, h' | ⟨he, h'⟩⟩
    · exact absurd h' (List.lt_asymm h)
    · subst he
      exact absurd h (List.lt_irrefl _)
    · exact absurd h' (List.lt_irrefl _)
    · exact ⟨rfl, h, h'⟩
  · rintro ⟨rfl, h, h'⟩
    exact ⟨Or.inr ⟨rfl, h⟩, Or.inr ⟨rfl, h'⟩⟩

theorem zeros_le (x : List UInt8) : List.replicate x.length 0 ≤ x := by
  induction x with
  | nil => simp
  | cons b x ih =>
    rw [List.length_cons, List.replicate_succ, List.cons_le_cons_iff]
    by_cases h : b = 0
    · exact Or.inr ⟨h.symm, ih⟩
    · exact Or.inl (UInt8.pos_iff_ne_zero.mpr h)

theorem le_ones (x : List UInt8) : x ≤ List.replicate x.length 0xFF := by
  induction x with
  | nil => simp
  | cons b x ih =>
    rw [List.length_cons, List.replicate_succ, List.cons_le_cons_iff]
    have hb : b ≤ 0xFF := by
      rw [UInt8.le_iff_toNat_le]
      have := b.toNat_lt
      simp
      omega
    rcases UInt8.le_iff_lt_or_eq.mp hb with h | h
    · exact Or.inl h
    · exact Or.inr ⟨h, ih⟩

/-- A prefix filled up with 0x00 and with 0xFF selects the keys that start with it. -/
theorem between_fill {p a : List UInt8} (k : Nat) (rest : List UInt8)
    (ha : a.length = p.length + k) :
    between (p ++ List.replicate k 0) (p ++ List.replicate k 0xFF) (a ++ rest) = true ↔
      a.take p.length = p := by
  have hsplit : a = a.take p.length ++ a.drop p.length := (List.take_append_drop _ _).symm
  have hlen : (a.drop p.length).length = k := by simp; omega
  have hhead : p.length = (a.take p.length).length := by simp; omega
  have htake (b : UInt8) : (a ++ rest).take (p ++ List.replicate k b).length = a := by
    rw [List.take_left']
    simp [ha]
  have hb : between (p ++ List.replicate k 0) (p ++ List.replicate k 0xFF) (a ++ rest) =
      between (p ++ List.replicate k 0) (p ++ List.replicate k 0xFF)
        (a.take p.length ++ a.drop p.length) := by
    rw [← hsplit]
    simp only [between, htake]
    have (b : UInt8) : a.take (p ++ List.replicate k b).length = a :=
      List.take_of_length_le (by simp [ha])
    simp only [this]
  rw [hb, between_field hhead (by simp [hlen]) (by simp [hlen])]
  constructor
  · exact fun h => h.1
  · intro h
    refine ⟨h, ?_, ?_⟩
    · simpa [hlen] using zeros_le (a.drop p.length)
    · simpa [hlen] using le_ones (a.drop p.length)

/-- How integers are laid out in keys: a fixed number of bytes each, ordered as the
numbers are. `readTime` is the field read of `key.get<std::time_t>()`. -/
structure KeyCodec where
  time : Int64 → List UInt8
  kind : UInt32 → List UInt8
  hash : UInt64 → List UInt8
  readTime : List UInt8 → Int64
  time_length : ∀ t, (time t).length = 8
  kind_length : ∀ k, (kind k).length = 4
  hash_length : ∀ h, (hash h).length = 8
  time_le : ∀ a b, time a ≤ time b ↔ a ≤ b
  kind_le : ∀ a b, kind a ≤ kind b ↔ a ≤ b
  hash_le : ∀ a b, hash a ≤ hash b ↔ a ≤ b
  readTime_time : ∀ t, readTime (time t) = t

theorem KeyCodec.kind_injective (kc : KeyCodec) (h : kc.kind a = kc.kind b) : a = b :=
  UInt32.le_antisymm ((kc.kind_le a b).mp (h ▸ List.le_refl _))
    ((kc.kind_le b a).mp (h ▸ List.le_refl _))

theorem KeyCodec.hash_injective (kc : KeyCodec) (h : kc.hash a = kc.hash b) : a = b :=
  UInt64.le_antisymm ((kc.hash_le a b).mp (h ▸ List.le_refl _))
    ((kc.hash_le b a).mp (h ▸ List.le_refl _))

def bigEndian : Nat → Nat → List UInt8
  | 0, _ => []
  | k + 1, v => UInt8.ofNat (v / 256 ^ k) :: bigEndian k (v % 256 ^ k)

def readBigEndian (bytes : List UInt8) : Nat := bytes.foldl (fun v b => v * 256 + b.toNat) 0

theorem bigEndian_length (k v : Nat) : (bigEndian k v).length = k := by
  induction k generalizing v with
  | zero => rfl
  | succ k ih => simp [bigEndian, ih]

theorem bigEndian_le (k : Nat) (hv : v < 256 ^ k) (hw : w < 256 ^ k) :
    bigEndian k v ≤ bigEndian k w ↔ v ≤ w := by
  induction k generalizing v w with
  | zero =>
    have : v = 0 ∧ w = 0 := by simp at hv hw; omega
    simp [bigEndian, this]
  | succ k ih =>
    have hp : 0 < 256 ^ k := Nat.pow_pos (by decide)
    have dv : v / 256 ^ k < 256 := Nat.div_lt_of_lt_mul (by rwa [Nat.pow_succ] at hv)
    have dw : w / 256 ^ k < 256 := Nat.div_lt_of_lt_mul (by rwa [Nat.pow_succ] at hw)
    have ev := Nat.div_add_mod v (256 ^ k)
    have ew := Nat.div_add_mod w (256 ^ k)
    have mv := Nat.mod_lt v hp
    have mw := Nat.mod_lt w hp
    rw [bigEndian, bigEndian, List.cons_le_cons_iff, ih mv mw, UInt8.lt_iff_toNat_lt]
    have tv : (UInt8.ofNat (v / 256 ^ k)).toNat = v / 256 ^ k := by simp; omega
    have tw : (UInt8.ofNat (w / 256 ^ k)).toNat = w / 256 ^ k := by simp; omega
    have heq : UInt8.ofNat (v / 256 ^ k) = UInt8.ofNat (w / 256 ^ k) ↔
        v / 256 ^ k = w / 256 ^ k := by
      rw [← UInt8.toNat_inj, tv, tw]
    rw [tv, tw, heq]
    constructor
    · rintro (h | ⟨h, h'⟩)
      · have : 256 ^ k * (v / 256 ^ k + 1) ≤ 256 ^ k * (w / 256 ^ k) := Nat.mul_le_mul_left _ h
        rw [Nat.mul_add] at this
        omega
      · rw [h] at ev
        omega
    · intro h
      rcases Nat.lt_or_eq_of_le (Nat.div_le_div_right (c := 256 ^ k) h) with h' | h'
      · exact Or.inl h'
      · rw [h'] at ev
        exact Or.inr ⟨h', by omega⟩

theorem readBigEndian_from (k : Nat) (hv : v < 256 ^ k) (acc : Nat) :
    (bigEndian k v).foldl (fun v b => v * 256 + b.toNat) acc = acc * 256 ^ k + v := by
  induction k generalizing v acc with
  | zero => simp at hv; simp [bigEndian, hv]
  | succ k ih =>
    have hp : 0 < 256 ^ k := Nat.pow_pos (by decide)
    have dv : v / 256 ^ k < 256 := Nat.div_lt_of_lt_mul (by rwa [Nat.pow_succ] at hv)
    have tv : (UInt8.ofNat (v / 256 ^ k)).toNat = v / 256 ^ k := by simp; omega
    rw [bigEndian, List.foldl_cons, ih (Nat.mod_lt v hp), tv, Nat.add_mul,
      Nat.mul_assoc, Nat.pow_succ, Nat.mul_comm 256 (256 ^ k), Nat.mul_comm (v / 256 ^ k)]
    have := Nat.div_add_mod v (256 ^ k)
    omega

/-- The time with its sign bit flipped, so that bytes order as numbers do. -/
def shifted (t : Int64) : Nat := (t.toInt + 2 ^ 63).toNat

theorem shifted_lt (t : Int64) : shifted t < 256 ^ 8 := by
  have h1 := t.toInt_lt
  have h2 := t.le_toInt
  unfold shifted
  omega

def bigEndianKeys : KeyCodec where
  time t := bigEndian 8 (shifted t)
  kind k := bigEndian 4 k.toNat
  hash h := bigEndian 8 h.toNat
  readTime bytes := Int64.ofInt (readBigEndian bytes - 2 ^ 63)
  time_length t := bigEndian_length 8 _
  kind_length k := bigEndian_length 4 _
  hash_length h := bigEndian_length 8 _
  time_le a b := by
    rw [bigEndian_le 8 (shifted_lt a) (shifted_lt b), Int64.le_iff_toInt_le]
    have ha := a.le_toInt
    have hb := b.le_toInt
    unfold shifted
    omega
  kind_le a b := by
    rw [bigEndian_le 4 (by have := a.toNat_lt; omega) (by have := b.toNat_lt; omega),
      UInt32.le_iff_toNat_le]
  hash_le a b := by
    rw [bigEndian_le 8 (by have := a.toNat_lt; omega) (by have := b.toNat_lt; omega),
      UInt64.le_iff_toNat_le]
  readTime_time t := by
    have h2 := t.le_toInt
    rw [readBigEndian, readBigEndian_from 8 (shifted_lt t)]
    have : ((0 * 256 ^ 8 + shifted t : Nat) : Int) - 2 ^ 63 = t.toInt := by
      unfold shifted
      omega
    rw [this, Int64.ofInt_toInt]

end Docdb
