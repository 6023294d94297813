import NostrServer.Telemetry.DecimalText
import NostrServer.Telemetry.Lowering

namespace NostrServer.Telemetry

open Positional Rounding

structure Numeral where
  negative : Bool
  plus : Bool
  whole : Str
  dotted : Bool
  fraction : Str
  /-- What comes after the digits. -/
  rest : Str
  digits : ∀ c ∈ whole ++ fraction, isDigit c = true
  undotted : dotted = false → fraction = []
  nonempty : whole ≠ [] ∨ dotted = true

def written (whole : Str) (dotted : Bool) (fraction rest : Str) : Str :=
  whole ++ ((if dotted then 46 :: fraction else []) ++ rest)

namespace Numeral
variable (n : Numeral) (d : Nat)

def text : Str :=
  (if n.negative then [45] else []) ++ ((if n.plus then [43] else []) ++
    written n.whole n.dotted n.fraction n.rest)

/-- There is no rest, or it is behind the first digit that is not kept. -/
def ReadBy : Prop := n.rest = [] ∨ d < n.fraction.length

def kept : Str := n.whole ++ n.fraction.take (d + 1)

/-- The number of units of `d` decimals, to the nearest, half of one being rounded up. -/
def nearest : Nat :=
  (value 10 (digitValues (n.whole ++ n.fraction)) * 10 ^ d + 10 ^ n.fraction.length / 2) /
    10 ^ n.fraction.length

/-- What is computed of the digits that are read does not overflow. -/
def Fits : Prop :=
  value 10 (digitValues (n.kept d)) * 10 ^ (d - n.fraction.length) +
    (if d < n.fraction.length then 5 else 0) < 2 ^ 63

end Numeral

theorem digitValues_append (s t : Str) : digitValues (s ++ t) = digitValues s ++ digitValues t :=
  List.map_append

theorem value_append (b : Nat) (ds es : List Nat) :
    value b (ds ++ es) = value b ds * b ^ es.length + value b es := by
  induction ds with
  | nil => simp
  | cons d ds ih =>
    rw [List.cons_append, value_cons, value_cons, ih, List.length_append, Nat.pow_add]
    ring

theorem value_digits (s t : Str) : value 10 (digitValues (s ++ t)) =
    value 10 (digitValues s) * 10 ^ t.length + value 10 (digitValues t) := by
  rw [digitValues_append, value_append]
  simp [digitValues]

theorem digit_ge (hc : isDigit c = true) : 48 ≤ c.toNat := by
  simp only [isDigit, Bool.and_eq_true, decide_eq_true_eq, UInt8.le_iff_toNat_le] at hc
  exact hc.1

/-- The first digit that is not kept is the last that is read. -/
theorem readLoop_last (hc : isDigit c = true) {n : Nat} (hn : n < 2 ^ 63)
    (hfit : n * 10 + (c.toNat - 48) < 2 ^ 63) {decimals decs : Int} (hlast : decs + 1 > decimals)
    (rest : Str) : readLoop decimals (c :: rest) (natural n hn) true decs =
      .ok (natural _ hfit, decs + 1) := by
  have hge := digit_ge hc
  have hten : checked ((natural n hn).val * 10) = .ok (natural (n * 10) (by omega)) :=
    checked_nat _ (by simp [natural])
  have hsum : checked ((natural (n * 10) (by omega)).val + (c.toNat - 48)) =
      .ok (natural (n * 10 + (c.toNat - 48)) hfit) := by
    apply checked_nat
    simp only [natural]
    omega
  rw [readLoop, if_pos hc, hten]
  simp only [bind, Except.bind]
  rw [hsum]
  simp [hlast, pure, Except.pure]

theorem error_ne_ok {ε α : Type} {e : ε} {x : α} : (.error e : Except ε α) ≠ .ok x := by
  intro h
  cases h

theorem checked_error (h : ¬ Fits n) : checked n = .error .overflow := dif_neg h

/-- A digit that is too much. -/
theorem readLoop_overflow (hc : isDigit c = true) {n : Nat} (hn : n < 2 ^ 63)
    (hfit : ¬ n * 10 + (c.toNat - 48) < 2 ^ 63) (decimals : Int) (rest : Str) (dot : Bool)
    (decs : Int) : readLoop decimals (c :: rest) (natural n hn) dot decs = .error .overflow := by
  have hge := digit_ge hc
  rw [readLoop, if_pos hc]
  by_cases hten : n * 10 < 2 ^ 63
  · have hfirst : checked ((natural n hn).val * 10) = .ok (natural (n * 10) hten) :=
      checked_nat _ (by simp [natural])
    have hsum : checked ((natural (n * 10) hten).val + (c.toNat - 48)) = .error .overflow := by
      apply checked_error
      rintro ⟨-, hhigh⟩
      simp only [natural] at hhigh
      omega
    rw [hfirst]
    simp only [bind, Except.bind]
    rw [hsum]
  · have hfirst : checked ((natural n hn).val * 10) = .error .overflow := by
      apply checked_error
      rintro ⟨-, hhigh⟩
      simp only [natural] at hhigh
      omega
    rw [hfirst]
    rfl

theorem value_digit (c : UInt8) (n : Nat) (s : Str) :
    n * 10 ^ (c :: s).length + value 10 (digitValues (c :: s)) =
      (n * 10 + (c.toNat - 48)) * 10 ^ s.length + value 10 (digitValues s) := by
  simp only [digitValues, List.map_cons, value_cons, List.length_cons, List.length_map,
    Nat.pow_succ]
  ring

/-- A number that is extended by digits is no smaller. -/
theorem le_value (n : Nat) (s : Str) : n ≤ n * 10 ^ s.length + value 10 (digitValues s) :=
  Nat.le_add_right_of_le (Nat.le_mul_of_pos_right n (Nat.pow_pos (by decide)))

/-- What is read of a text after the dot: digits up to the first that is not kept, which
extend `n` and are counted on from `e`. -/
def ReadsFraction (d e n : Nat) (s : Str) (r : BaseType × Int) : Prop :=
  ∃ f rest, s = f ++ rest ∧ (∀ c ∈ f, isDigit c = true) ∧ (rest = [] ∨ e + f.length = d + 1) ∧
    e + f.length ≤ d + 1 ∧ r.2 = (e + f.length : Nat) ∧
    r.1.val = (n * 10 ^ f.length + value 10 (digitValues f) : Nat)

theorem readsFraction_nil (he : e ≤ d) :
    ReadsFraction d e n [] r ↔ r.2 = (e : Nat) ∧ r.1.val = (n : Nat) := by
  constructor
  · rintro ⟨f, rest, hs, -, -, -, hdecs, hval⟩
    obtain ⟨rfl, rfl⟩ := List.append_eq_nil_iff.mp hs.symm
    exact ⟨by simpa using hdecs, by simpa [digitValues] using hval⟩
  · rintro ⟨hdecs, hval⟩
    exact ⟨[], [], rfl, by simp, Or.inl rfl, by simp; omega, by simpa using hdecs,
      by simpa [digitValues] using hval⟩

theorem readsFraction_full :
    ReadsFraction d (d + 1) n s r ↔ r.2 = (d + 1 : Nat) ∧ r.1.val = (n : Nat) := by
  constructor
  · rintro ⟨f, rest, -, -, -, hle, hdecs, hval⟩
    have hnil : f = [] := List.length_eq_zero_iff.mp (by omega)
    subst hnil
    exact ⟨by simpa using hdecs, by simpa [digitValues] using hval⟩
  · rintro ⟨hdecs, hval⟩
    exact ⟨[], s, rfl, by simp, Or.inr rfl, Nat.le_refl _, by simpa using hdecs,
      by simpa [digitValues] using hval⟩

theorem readsFraction_cons (he : e ≤ d) : ReadsFraction d e n (c :: s) r ↔
    isDigit c = true ∧ ReadsFraction d (e + 1) (n * 10 + (c.toNat - 48)) s r := by
  constructor
  · rintro ⟨f, rest, hs, hf, hrest, hle, hdecs, hval⟩
    cases f with
    | nil =>
      have hnone : rest ≠ [] := by
        rintro rfl
        cases hs
      have hcut := hrest.resolve_left hnone
      rw [List.length_nil] at hcut
      omega
    | cons c' f =>
      obtain ⟨rfl, rfl⟩ := List.cons.inj hs
      obtain ⟨hc, hf⟩ := List.forall_mem_cons.mp hf
      have hlen : e + (c :: f).length = e + 1 + f.length := by
        rw [List.length_cons]
        omega
      rw [hlen] at hrest hle hdecs
      exact ⟨hc, f, rest, rfl, hf, hrest, hle, hdecs, value_digit c n f ▸ hval⟩
  · rintro ⟨hc, f, rest, rfl, hf, hrest, hle, hdecs, hval⟩
    have hlen : e + (c :: f).length = e + 1 + f.length := by
      rw [List.length_cons]
      omega
    refine ⟨c :: f, rest, rfl, List.forall_mem_cons.mpr ⟨hc, hf⟩, ?_, ?_, ?_, ?_⟩
    · rwa [hlen]
    · rwa [hlen]
    · rwa [hlen]
    · rwa [value_digit]

theorem ReadsFraction.le (h : ReadsFraction d e n s r) : (n : Int) ≤ r.1.val := by
  obtain ⟨f, -, -, -, -, -, -, hval⟩ := h
  rw [hval]
  exact Int.ofNat_le.mpr (le_value n f)

theorem read_eq {h : n < 2 ^ 63} {e : Int} {r : BaseType × Int} :
    (Except.ok (natural n h, e) : Except NumberError _) = .ok r ↔
      r.2 = e ∧ r.1.val = (n : Nat) := by
  rw [Except.ok.injEq]
  constructor
  · rintro rfl
    exact ⟨rfl, rfl⟩
  · rintro ⟨hdecs, hval⟩
    exact Prod.ext (Subtype.ext hval.symm) hdecs.symm

/-- The loop reads what there is to read after the dot, and nothing else. -/
theorem readLoop_fraction (d : Nat) (s : Str) {n e : Nat} (hn : n < 2 ^ 63) (he : e ≤ d)
    {r : BaseType × Int} :
    readLoop d s (natural n hn) true e = .ok r ↔ ReadsFraction d e n s r := by
  induction s generalizing n e with
  | nil => rw [readsFraction_nil he, readLoop, read_eq]
  | cons c s ih =>
    rw [readsFraction_cons he]
    by_cases hc : isDigit c = true
    · rw [and_iff_right hc]
      by_cases hfit : n * 10 + (c.toNat - 48) < 2 ^ 63
      · by_cases hlast : e = d
        · subst hlast
          rw [readLoop_last hc hn hfit (by omega), readsFraction_full, read_eq]
          rfl
        · have hnext : (e : Int) + 1 = (e + 1 : Nat) := rfl
          rw [readLoop_digit hc hn hfit (fun _ => by omega), if_pos rfl, hnext]
          exact ih hfit (by omega)
      · rw [readLoop_overflow hc hn hfit]
        refine iff_of_false error_ne_ok (fun h => ?_)
        have hge := h.le
        have hbound := r.1.property.2
        omega
    · refine iff_of_false (fun h => ?_) (fun h => hc h.1)
      rw [readLoop, if_neg hc] at h
      split at h <;> cases h

def ReadsNumber (d n : Nat) (s : Str) (r : BaseType × Int) : Prop :=
  ∃ whole dotted fraction rest, s = written whole dotted fraction rest ∧
    (∀ c ∈ whole ++ fraction, isDigit c = true) ∧ (dotted = false → fraction = []) ∧
    (rest = [] ∨ fraction.length = d + 1) ∧ fraction.length ≤ d + 1 ∧
    r.2 = (fraction.length : Nat) ∧ r.1.val =
      (n * 10 ^ (whole ++ fraction).length + value 10 (digitValues (whole ++ fraction)) : Nat)

theorem readsNumber_nil : ReadsNumber d n [] r ↔ r.2 = 0 ∧ r.1.val = (n : Nat) := by
  constructor
  · rintro ⟨whole, dotted, fraction, rest, hs, -, hdot, -, -, hdecs, hval⟩
    obtain ⟨rfl, htail⟩ := List.append_eq_nil_iff.mp hs.symm
    obtain ⟨hdotted, rfl⟩ := List.append_eq_nil_iff.mp htail
    cases dotted with
    | true => cases hdotted
    | false =>
      rw [hdot rfl] at hdecs hval
      exact ⟨by simpa using hdecs, by simpa [digitValues] using hval⟩
  · rintro ⟨hdecs, hval⟩
    exact ⟨[], false, [], [], rfl, by simp, fun _ => rfl, Or.inl rfl, by simp, hdecs,
      by simpa [digitValues] using hval⟩

theorem readsNumber_digit (hc : isDigit c = true) : ReadsNumber d n (c :: s) r ↔
    ReadsNumber d (n * 10 + (c.toNat - 48)) s r := by
  have hdot : c ≠ 46 := by
    rintro rfl
    cases hc
  constructor
  · rintro ⟨whole, dotted, fraction, rest, hs, hds, hundotted, hrest, hle, hdecs, hval⟩
    cases whole with
    | nil =>
      cases dotted with
      | true => exact absurd (List.cons.inj hs).1 hdot
      | false =>
        rw [hundotted rfl] at hrest
        have hnone : rest = [] := hrest.resolve_right (by simp)
        subst hnone
        cases hs
    | cons c' whole =>
      obtain ⟨rfl, rfl⟩ := List.cons.inj hs
      refine ⟨whole, dotted, fraction, rest, rfl, (List.forall_mem_cons.mp hds).2, hundotted, hrest,
        hle, hdecs, ?_⟩
      rw [hval, List.cons_append, value_digit]
  · rintro ⟨whole, dotted, fraction, rest, rfl, hds, hundotted, hrest, hle, hdecs, hval⟩
    refine ⟨c :: whole, dotted, fraction, rest, rfl, List.forall_mem_cons.mpr ⟨hc, hds⟩, hundotted,
      hrest, hle, hdecs, ?_⟩
    rw [hval, List.cons_append, value_digit]

theorem readsNumber_dot : ReadsNumber d n (46 :: s) r ↔ ReadsFraction d 0 n s r := by
  constructor
  · rintro ⟨whole, dotted, fraction, rest, hs, hds, hundotted, hrest, hle, hdecs, hval⟩
    cases whole with
    | cons c' whole =>
      obtain ⟨rfl, -⟩ := List.cons.inj hs
      cases (List.forall_mem_cons.mp hds).1
    | nil =>
      cases dotted with
      | true =>
        obtain ⟨-, rfl⟩ := List.cons.inj hs
        exact ⟨fraction, rest, rfl, hds, by simpa using hrest, by simpa using hle,
          by simpa using hdecs, hval⟩
      | false =>
        rw [hundotted rfl] at hrest
        have hnone : rest = [] := hrest.resolve_right (by simp)
        subst hnone
        cases hs
  · rintro ⟨f, rest, rfl, hds, hrest, hle, hdecs, hval⟩
    exact ⟨[], true, f, rest, rfl, hds, (by simp), by simpa using hrest,
      by simpa using hle, by simpa using hdecs, hval⟩

theorem readsNumber_other (hc : isDigit c ≠ true) (hdot : c ≠ 46) :
    ¬ ReadsNumber d n (c :: s) r := by
  rintro ⟨whole, dotted, fraction, rest, hs, hds, hundotted, hrest, hle, hdecs, hval⟩
  cases whole with
  | cons c' whole =>
    obtain ⟨rfl, -⟩ := List.cons.inj hs
    exact hc (List.forall_mem_cons.mp hds).1
  | nil =>
    cases dotted with
    | true => exact hdot (List.cons.inj hs).1
    | false =>
      rw [hundotted rfl] at hrest
      have hnone : rest = [] := hrest.resolve_right (by simp)
      subst hnone
      cases hs

theorem ReadsNumber.le (h : ReadsNumber d n s r) : (n : Int) ≤ r.1.val := by
  obtain ⟨whole, -, fraction, -, -, -, -, -, -, -, hval⟩ := h
  rw [hval]
  exact Int.ofNat_le.mpr (le_value n _)

/-- The loop reads what there is to read. -/
theorem readLoop_number (d : Nat) (s : Str) {n : Nat} (hn : n < 2 ^ 63) {r : BaseType × Int} :
    readLoop d s (natural n hn) false 0 = .ok r ↔ ReadsNumber d n s r := by
  induction s generalizing n with
  | nil => rw [readsNumber_nil, readLoop, read_eq]
  | cons c s ih =>
    by_cases hc : isDigit c = true
    · rw [readsNumber_digit hc]
      by_cases hfit : n * 10 + (c.toNat - 48) < 2 ^ 63
      · rw [readLoop_digit hc hn hfit (by simp)]
        exact ih hfit
      · rw [readLoop_overflow hc hn hfit]
        refine iff_of_false error_ne_ok (fun h => ?_)
        have hge := h.le
        have hbound := r.1.property.2
        omega
    · rw [readLoop, if_neg hc]
      by_cases hdot : c = 46
      · subst hdot
        rw [if_pos rfl, readsNumber_dot]
        exact readLoop_fraction d s hn (Nat.zero_le d)
      · rw [if_neg hdot]
        exact iff_of_false error_ne_ok (readsNumber_other hc hdot)

theorem timesTen_iff {n m : BaseType} (hn : 0 ≤ n.val) (k : Nat) :
    timesTen k n = .ok m ↔ m.val = n.val * 10 ^ k := by
  refine ⟨timesTen_val, fun h => ?_⟩
  induction k generalizing n with
  | zero => exact congrArg Except.ok (Subtype.ext (by simpa using h.symm))
  | succ k ih =>
    have hstep : n.val * 10 ^ (k + 1) = n.val * 10 * 10 ^ k := by
      rw [Int.mul_assoc, ← Int.pow_succ']
    have hpow : (0 : Int) < 10 ^ k := Int.pow_pos (by decide)
    have hle : n.val * 10 ≤ m.val := by
      rw [h, hstep]
      exact le_mul_of_one_le_right (by omega) hpow
    have hfit : Fits (n.val * 10) := ⟨by omega, Int.lt_of_le_of_lt hle m.property.2⟩
    simp only [timesTen, checked_ok hfit, bind, Except.bind]
    exact ih (by simp only; omega) (h.trans hstep)

/-- One division with rounding. -/
theorem divideTen_one {n m : BaseType} (hn : 0 ≤ n.val) :
    divideTen 1 n = .ok m ↔ n.val + 5 < 2 ^ 63 ∧ m.val = (n.val + 5) / 10 := by
  obtain ⟨n, hlow, hhigh⟩ := n
  dsimp only at hn
  have hhalf : checked ((10 : Int).tdiv 2) = .ok ⟨5, by decide⟩ := rfl
  have hquot (k : Int) (hk : 0 ≤ k) : (n + k).tdiv 10 = (n + k) / 10 :=
    Int.tdiv_eq_ediv_of_nonneg (by omega)
  simp only [divideTen, divideRoundChecked, hhalf, bind, Except.bind]
  by_cases hpos : n > 0
  · rw [if_pos hpos]
    by_cases hfit : n + 5 < 2 ^ 63
    · have hfits : Fits (n + 5) := ⟨by omega, hfit⟩
      have hresult : Fits ((n + 5) / 10) := ⟨by omega, by omega⟩
      rw [checked_ok hfits]
      dsimp only
      rw [hquot 5 (by decide), checked_ok hresult]
      simp only [Except.ok.injEq, hfit, true_and]
      exact ⟨fun h => h ▸ rfl, fun h => Subtype.ext h.symm⟩
    · have hfits : ¬ Fits (n + 5) := fun h => hfit h.2
      rw [checked_error hfits]
      exact iff_of_false error_ne_ok (fun h => hfit h.1)
  · obtain rfl : n = 0 := by omega
    have hzero : checked ((0 : Int) - 5) = .ok ⟨-5, by decide⟩ := rfl
    have hresult : checked ((-5 : Int).tdiv 10) = .ok ⟨0, by decide⟩ := rfl
    rw [if_neg hpos, hzero]
    dsimp only
    rw [hresult]
    simp only [Except.ok.injEq]
    exact ⟨fun h => h ▸ ⟨by decide, rfl⟩, fun h => Subtype.ext h.2.symm⟩

/-- What follows the loop: zeros for the decimals that are missing, or the rounding of the
one that is not kept. -/
def finish (d : Nat) (r : BaseType × Int) : Except NumberError BaseType := do
  let n ← timesTen ((d : Int) - r.2).toNat r.1
  divideTen (r.2 - d).toNat n

theorem finish_iff {d f n : Nat} (hf : f ≤ d + 1) {r : BaseType × Int} (hdecs : r.2 = f)
    (hval : r.1.val = n) {m : BaseType} : finish d r = .ok m ↔
      n * 10 ^ (d - f) + (if d < f then 5 else 0) < 2 ^ 63 ∧
      m.val = (if d < f then (n + 5) / 10 else n * 10 ^ (d - f) : Nat) := by
  have hzeros : ((d : Int) - r.2).toNat = d - f := by omega
  have hnonneg : 0 ≤ r.1.val := by omega
  unfold finish
  rw [hzeros]
  by_cases hcut : d < f
  · have hone : (r.2 - d).toNat = 1 := by omega
    have hnone : d - f = 0 := by omega
    rw [hone, hnone, if_pos hcut, if_pos hcut, Nat.pow_zero, Nat.mul_one]
    refine (divideTen_one hnonneg).trans ?_
    omega
  · have hnone : (r.2 - d).toNat = 0 := by omega
    rw [hnone, if_neg hcut, if_neg hcut, Nat.add_zero]
    have hsame : (do let n ← timesTen (d - f) r.1; divideTen 0 n) = timesTen (d - f) r.1 := by
      cases timesTen (d - f) r.1 <;> rfl
    rw [hsame, timesTen_iff hnonneg, hval]
    constructor
    · intro h
      have hbound := m.property.2
      rw [h] at hbound
      exact ⟨by exact_mod_cast hbound, by exact_mod_cast h⟩
    · rintro ⟨-, h⟩
      exact_mod_cast h

theorem value_dropped (hds : ∀ c ∈ s, isDigit c = true) :
    value 10 (digitValues s) < 10 ^ s.length := by
  have hlt : ∀ v ∈ digitValues s, v < 10 := by
    intro v hv
    obtain ⟨c, hc, rfl⟩ := List.mem_map.mp hv
    have hdigit := hds c hc
    simp only [isDigit, Bool.and_eq_true, decide_eq_true_eq, UInt8.le_iff_toNat_le] at hdigit
    have hhigh : c.toNat ≤ 57 := hdigit.2
    omega
  have hvalue := value_lt (by decide) hlt
  rwa [digitValues, List.length_map] at hvalue

/-- The digits that are read give what all of them give. -/
theorem nearest_kept (whole fraction : Str) (d : Nat)
    (hds : ∀ c ∈ fraction, isDigit c = true) :
    (value 10 (digitValues (whole ++ fraction)) * 10 ^ d + 10 ^ fraction.length / 2) /
        10 ^ fraction.length =
      if d < fraction.length then
        (value 10 (digitValues (whole ++ fraction.take (d + 1))) + 5) / 10
      else value 10 (digitValues (whole ++ fraction)) * 10 ^ (d - fraction.length) := by
  by_cases hcut : d < fraction.length
  · rw [if_pos hcut]
    generalize hkept : fraction.take (d + 1) = kept
    generalize hdropped : fraction.drop (d + 1) = dropped
    have hsplit : fraction = kept ++ dropped := by
      rw [← hkept, ← hdropped, List.take_append_drop]
    have hlen : fraction.length = dropped.length + 1 + d := by
      rw [← hdropped, List.length_drop]
      omega
    have hless : value 10 (digitValues dropped) < 10 ^ dropped.length :=
      value_dropped (fun c hc => hds c (List.mem_of_mem_drop (hdropped ▸ hc)))
    have hunit : 10 ^ (dropped.length + 1 + d) = 2 * (5 * 10 ^ dropped.length) * 10 ^ d := by
      rw [Nat.pow_add, Nat.pow_succ]
      ring
    rw [hlen, hunit, hsplit, ← List.append_assoc, value_digits,
      nearest_scale (Nat.pow_pos (by decide)), nearest_cut (Nat.pow_pos (by decide)) hless]
  · rw [if_neg hcut]
    have hpow : 10 ^ d = 10 ^ (d - fraction.length) * 10 ^ fraction.length := by
      rw [← Nat.pow_add, Nat.sub_add_cancel (by omega)]
    rw [hpow, ← Nat.mul_assoc]
    exact nearest_whole (Nat.pow_pos (by decide)) _

def signs (negative plus : Bool) (text : Str) : Str :=
  (if negative then [45] else []) ++ ((if plus then [43] else []) ++ text)

theorem fits_zero : Fits 0 := by decide

def unsigned (d : Nat) (negative : Bool) (text : Str) : Except NumberError (Decimal d) := do
  let r ← readLoop d text ⟨0, fits_zero⟩ false 0
  let n ← finish d r
  let n ← if negative then checked (-n.val) else pure n
  return ⟨n⟩

def afterMinus (d : Nat) (negative : Bool) : Str → Except NumberError (Decimal d)
  | [] => .error .pastTheEnd
  | c :: tail =>
    let text := if c = 43 then tail else c :: tail
    if text.isEmpty then .error (.invalidArgument (str "Invalid numeric format (empty string)"))
    else unsigned d negative text

theorem ofText_minus (d : Nat) (tail : Str) :
    Decimal.ofText d (45 :: tail) = afterMinus d true tail := by
  cases tail <;> simp [Decimal.ofText, afterMinus, unsigned, finish]

theorem ofText_plain (d : Nat) {c : UInt8} (hc : c ≠ 45) (tail : Str) :
    Decimal.ofText d (c :: tail) = afterMinus d false (c :: tail) := by
  simp [Decimal.ofText, afterMinus, unsigned, finish, hc]

theorem afterMinus_ok {d : Nat} {negative : Bool} {s : Str} {x : Decimal d}
    (h : afterMinus d negative s = .ok x) : ∃ (plus : Bool) (text : Str),
      s = (if plus then [43] else []) ++ text ∧ text ≠ [] ∧
      unsigned d negative text = .ok x := by
  cases s with
  | nil => cases h
  | cons c tail =>
    unfold afterMinus at h
    dsimp only at h
    by_cases hplus : c = 43
    · subst hplus
      rw [if_pos rfl] at h
      split at h
      · cases h
      · rename_i hsome
        exact ⟨true, tail, rfl, by simpa using hsome, h⟩
    · rw [if_neg hplus] at h
      exact ⟨false, c :: tail, rfl, List.cons_ne_nil c tail, h⟩

/-- Only what comes after signs is read as a number. -/
theorem ofText_ok {d : Nat} {strn : Str} {x : Decimal d} (h : Decimal.ofText d strn = .ok x) :
    ∃ (negative plus : Bool) (text : Str), strn = signs negative plus text ∧ text ≠ [] ∧
      unsigned d negative text = .ok x := by
  cases strn with
  | nil => cases h
  | cons c tail =>
    by_cases hc : c = 45
    · subst hc
      rw [ofText_minus] at h
      obtain ⟨plus, text, rfl, hsome, hread⟩ := afterMinus_ok h
      exact ⟨true, plus, text, rfl, hsome, hread⟩
    · rw [ofText_plain d hc] at h
      obtain ⟨plus, text, hs, hsome, hread⟩ := afterMinus_ok h
      exact ⟨false, plus, text, hs, hsome, hread⟩

theorem ofText_signs (d : Nat) (negative plus : Bool) {c : UInt8} (hminus : c ≠ 45)
    (hplus : c ≠ 43) (rest : Str) :
    Decimal.ofText d (signs negative plus (c :: rest)) = unsigned d negative (c :: rest) := by
  cases negative <;> cases plus <;>
    simp [Decimal.ofText, signs, unsigned, finish, hminus, hplus]

theorem unsigned_iff {d : Nat} {negative : Bool} {text : Str} {x : Decimal d} :
    unsigned d negative text = .ok x ↔ ∃ r m, ReadsNumber d 0 text r ∧ finish d r = .ok m ∧
      x.raw.val = if negative then -m.val else m.val := by
  have hread (r : BaseType × Int) : readLoop d text ⟨0, by decide⟩ false 0 = .ok r ↔
      ReadsNumber d 0 text r := readLoop_number d text (by decide)
  simp only [← hread]
  unfold unsigned
  cases readLoop d text ⟨0, by decide⟩ false 0 with
  | error e => exact iff_of_false error_ne_ok (by simp)
  | ok r =>
    simp only [bind, Except.bind, Except.ok.injEq, exists_eq_left', exists_and_left]
    cases finish d r with
    | error e => exact iff_of_false error_ne_ok (by simp)
    | ok m =>
      simp only [Except.ok.injEq, exists_eq_left']
      obtain ⟨v⟩ := x
      cases negative with
      | false =>
        simp only [Bool.false_eq_true, ↓reduceIte, pure, Except.pure, Except.ok.injEq,
          Decimal.mk.injEq]
        exact ⟨fun h => h ▸ rfl, fun h => Subtype.ext h.symm⟩
      | true =>
        by_cases hfits : Fits (-m.val)
        · simp only [↓reduceIte, checked_ok hfits, pure, Except.pure, Except.ok.injEq,
            Decimal.mk.injEq]
          exact ⟨fun h => h ▸ rfl, fun h => Subtype.ext h.symm⟩
        · simp only [↓reduceIte, checked_error hfits]
          exact iff_of_false error_ne_ok (fun h => hfits (h ▸ v.property))

namespace Numeral
variable {n : Numeral} {d : Nat}

theorem nearest_eq (n : Numeral) (d : Nat) : n.nearest d = if d < n.fraction.length then
    (value 10 (digitValues (n.kept d)) + 5) / 10
    else value 10 (digitValues (n.kept d)) * 10 ^ (d - n.fraction.length) := by
  rw [nearest, nearest_kept n.whole n.fraction d
    (fun c hc => n.digits c (List.mem_append_right _ hc)), kept]
  by_cases hcut : d < n.fraction.length
  · rw [if_pos hcut, if_pos hcut]
  · rw [if_neg hcut, if_neg hcut, List.take_of_length_le (by omega)]

theorem kept_lt (h : n.Fits d) : value 10 (digitValues (n.kept d)) < 2 ^ 63 := by
  have hle := Nat.le_mul_of_pos_right (value 10 (digitValues (n.kept d)))
    (Nat.pow_pos (n := d - n.fraction.length) (show 0 < 10 by decide))
  unfold Fits at h
  omega

theorem nearest_lt (h : n.Fits d) : n.nearest d < 2 ^ 63 := by
  have hkept := kept_lt h
  unfold Fits at h
  rw [nearest_eq]
  split <;> omega

/-- The digits that are read are rounded as all of them are. -/
theorem finish_nearest {r : BaseType × Int} (hdecs : r.2 = (n.fraction.take (d + 1)).length)
    (hval : r.1.val = value 10 (digitValues (n.kept d))) {m : BaseType} :
    finish d r = .ok m ↔ n.Fits d ∧ m.val = n.nearest d := by
  have hlen : (n.fraction.take (d + 1)).length = min (d + 1) n.fraction.length :=
    List.length_take
  have hcut : d < (n.fraction.take (d + 1)).length ↔ d < n.fraction.length := by omega
  have hzeros : d - (n.fraction.take (d + 1)).length = d - n.fraction.length := by omega
  rw [finish_iff (by omega) hdecs hval, hzeros, nearest_eq, Fits]
  simp only [hcut]

theorem readsNumber (h : n.ReadBy d) {r : BaseType × Int}
    (hdecs : r.2 = (n.fraction.take (d + 1)).length)
    (hval : r.1.val = value 10 (digitValues (n.kept d))) :
    ReadsNumber d 0 (written n.whole n.dotted n.fraction n.rest) r := by
  have hlen : (n.fraction.take (d + 1)).length = min (d + 1) n.fraction.length :=
    List.length_take
  refine ⟨n.whole, n.dotted, n.fraction.take (d + 1), n.fraction.drop (d + 1) ++ n.rest, ?_, ?_, ?_,
    ?_, by omega, hdecs, by rw [hval, Nat.zero_mul, Nat.zero_add]; rfl⟩
  · cases hdot : n.dotted with
    | false => simp [written, n.undotted hdot]
    | true =>
      simp only [written, ↓reduceIte, List.cons_append]
      rw [← List.append_assoc (n.fraction.take (d + 1)), List.take_append_drop]
  · intro c hc
    rcases List.mem_append.mp hc with hc | hc
    · exact n.digits c (List.mem_append_left _ hc)
    · exact n.digits c (List.mem_append_right _ (List.mem_of_mem_take hc))
  · intro hdot
    rw [n.undotted hdot, List.take_nil]
  · by_cases hcut : d < n.fraction.length
    · right
      omega
    · left
      rw [h.resolve_right hcut, List.drop_eq_nil_of_le (by omega)]
      rfl

/-- A number does not start as a sign does. -/
theorem written_head (n : Numeral) : ∃ c s,
    written n.whole n.dotted n.fraction n.rest = c :: s ∧ c ≠ 45 ∧ c ≠ 43 := by
  cases hwhole : n.whole with
  | nil =>
    have hdot : n.dotted = true := n.nonempty.resolve_left (fun h => h hwhole)
    rw [hdot]
    exact ⟨46, n.fraction ++ n.rest, rfl, by decide, by decide⟩
  | cons c s =>
    have hc : isDigit c = true :=
      n.digits c (List.mem_append_left _ (hwhole ▸ List.mem_cons_self))
    refine ⟨c, _, rfl, ?_, ?_⟩
    · rintro rfl
      cases hc
    · rintro rfl
      cases hc

end Numeral

/-- A text is read as the number `x` exactly if it is written as a number and `x` is the nearest
to that one, unless the computation overflows. -/
theorem Decimal.ofText_iff (d : Nat) (strn : Str) (x : Decimal d) :
    Decimal.ofText d strn = .ok x ↔ ∃ n : Numeral, strn = n.text ∧ n.ReadBy d ∧ n.Fits d ∧
      x.raw.val = if n.negative then -(n.nearest d : Int) else n.nearest d := by
  constructor
  · intro h
    obtain ⟨negative, plus, text, rfl, hsome, hread⟩ := ofText_ok h
    obtain ⟨r, m, hnumber, hfinish, hx⟩ := unsigned_iff.mp hread
    obtain ⟨whole, dotted, fraction, rest, rfl, hds, hundotted, hrest, hle, hdecs, hval⟩ := hnumber
    have htake : fraction.take (d + 1) = fraction := List.take_of_length_le hle
    have hnonempty : whole ≠ [] ∨ dotted = true := by
      by_contra hnone
      rw [not_or, not_not, Bool.not_eq_true] at hnone
      obtain ⟨rfl, rfl⟩ := hnone
      have hshort : rest = [] := hrest.resolve_right (by simp [hundotted rfl])
      exact hsome (by simp [written, hshort])
    let n : Numeral :=
      ⟨negative, plus, whole, dotted, fraction, rest, hds, hundotted, hnonempty⟩
    have hkept : n.kept d = whole ++ fraction := congrArg (whole ++ ·) htake
    rw [Nat.zero_mul, Nat.zero_add, ← hkept] at hval
    have hread : n.ReadBy d :=
      hrest.imp_right (fun h : fraction.length = d + 1 => h ▸ Nat.lt_succ_self d)
    obtain ⟨hfit, hm⟩ := (Numeral.finish_nearest (n := n) (htake.symm ▸ hdecs) hval).mp hfinish
    rw [hm] at hx
    exact ⟨n, rfl, hread, hfit, hx⟩
  · rintro ⟨n, rfl, hread, hfit, hx⟩
    let r : BaseType × Int :=
      ⟨natural (value 10 (digitValues (n.kept d))) (Numeral.kept_lt hfit),
        (n.fraction.take (d + 1)).length⟩
    obtain ⟨c, s, hwritten, hminus, hplus⟩ := n.written_head
    have hfinish : finish d r = .ok (natural (n.nearest d) (Numeral.nearest_lt hfit)) :=
      (Numeral.finish_nearest rfl rfl).mpr ⟨hfit, rfl⟩
    have hnumber := Numeral.readsNumber hread (r := r) rfl rfl
    have hunsigned : unsigned d n.negative (c :: s) = .ok x :=
      unsigned_iff.mpr ⟨r, _, hwritten ▸ hnumber, hfinish, hx⟩
    rw [← ofText_signs d n.negative n.plus hminus hplus s, ← hwritten] at hunsigned
    exact hunsigned

end NostrServer.Telemetry
