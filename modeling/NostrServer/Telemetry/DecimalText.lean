import NostrServer.Telemetry.Decimal
import NostrServer.Lib.Positional

namespace NostrServer.Telemetry

open Positional

def digit (n : Nat) : UInt8 := UInt8.ofNat (48 + n)

def digitValues (s : Str) : List Nat := s.map (fun c => c.toNat - 48)

theorem digit_toNat (h : n < 10) : (digit n).toNat = 48 + n := by
  simp [digit]
  omega

theorem digit_isDigit (h : n < 10) : isDigit (digit n) = true := by
  have hn := digit_toNat h
  simp only [isDigit, Bool.and_eq_true, decide_eq_true_eq, UInt8.le_iff_toNat_le, hn]
  exact ⟨Nat.le_add_right _ _, show 48 + n ≤ 57 by omega⟩

/-- The digits of a number, without zeros before them. -/
def wholeDigits (q : Nat) : Str :=
  if q < 10 then [digit q] else wholeDigits (q / 10) ++ [digit (q % 10)]

def fractionDigits : Nat → Nat → Str
  | 0, _ => []
  | d + 1, m => fractionDigits d (m / 10) ++ [digit (m % 10)]

theorem wholeDigits_step (q : Nat) :
    wholeDigits q = (if q / 10 = 0 then [] else wholeDigits (q / 10)) ++ [digit (q % 10)] := by
  rw [wholeDigits]
  by_cases hlt : q < 10
  · simp [hlt, Nat.div_eq_of_lt hlt, Nat.mod_eq_of_lt hlt]
  · have hmore : ¬ q / 10 = 0 := by omega
    simp [hlt, hmore]

theorem wholeDigits_spec (q : Nat) :
    (∀ c ∈ wholeDigits q, isDigit c = true) ∧ value 10 (digitValues (wholeDigits q)) = q := by
  induction q using Nat.strong_induction_on with
  | _ q ih =>
    unfold wholeDigits
    split
    · rename_i hq
      simp [digit_isDigit hq, digitValues, digit_toNat hq, value_cons]
    · rename_i hq
      obtain ⟨hdigits, hvalue⟩ := ih (q / 10) (by omega)
      have hlast : q % 10 < 10 := Nat.mod_lt _ (by decide)
      constructor
      · intro c hc
        rcases List.mem_append.mp hc with hc | hc
        · exact hdigits c hc
        · rw [List.mem_singleton.mp hc]
          exact digit_isDigit hlast
      · simp only [digitValues, List.map_append, List.map_cons,
          List.map_nil, value_snoc] at hvalue ⊢
        rw [hvalue, digit_toNat hlast]
        omega

theorem wholeDigits_ne_nil (q : Nat) : wholeDigits q ≠ [] := by
  unfold wholeDigits
  split <;> simp

/-- Only zero itself starts with a zero. -/
theorem wholeDigits_head (q : Nat) (h : (wholeDigits q).head? = some 48) :
    wholeDigits q = [48] := by
  have hpos (q : Nat) (hq : 0 < q) : (wholeDigits q).head? ≠ some 48 := by
    induction q using Nat.strong_induction_on with
    | _ q ih =>
      unfold wholeDigits
      split
      · rename_i hlt
        intro he
        have hnat := congrArg UInt8.toNat (Option.some.inj he)
        rw [digit_toNat hlt] at hnat
        have h48 : (48 : UInt8).toNat = 48 := rfl
        omega
      · rename_i hge
        have hnot := ih (q / 10) (by omega) (by omega)
        obtain ⟨c, rest, hc⟩ := List.exists_cons_of_ne_nil (wholeDigits_ne_nil (q / 10))
        rw [hc] at hnot ⊢
        exact hnot
  rcases Nat.eq_zero_or_pos q with rfl | hq
  · exact wholeDigits_step 0
  · exact absurd h (hpos q hq)

theorem fractionDigits_spec (d m : Nat) : (fractionDigits d m).length = d ∧
    (∀ c ∈ fractionDigits d m, isDigit c = true) ∧
    value 10 (digitValues (fractionDigits d m)) = m % 10 ^ d := by
  induction d generalizing m with
  | zero => simp [fractionDigits, digitValues, Nat.mod_one]
  | succ d ih =>
    obtain ⟨hlen, hdigits, hvalue⟩ := ih (m / 10)
    have hlast : m % 10 < 10 := Nat.mod_lt _ (by decide)
    refine ⟨by simp [fractionDigits, hlen], ?_, ?_⟩
    · intro c hc
      rcases List.mem_append.mp hc with hc | hc
      · exact hdigits c hc
      · rw [List.mem_singleton.mp hc]
        exact digit_isDigit hlast
    · simp only [fractionDigits, digitValues, List.map_append, List.map_cons, List.map_nil,
        value_snoc] at hvalue ⊢
      have hmod : m % 10 ^ (d + 1) = m % 10 + 10 * (m / 10 % 10 ^ d) := by
        rw [Nat.pow_succ', Nat.mod_mul]
      rw [hvalue, digit_toNat hlast, hmod]
      omega

def spelled (d m : Nat) : Str :=
  wholeDigits (m / 10 ^ d) ++ if d = 0 then [] else 46 :: fractionDigits d m

theorem toStringHelper_nat (m : Nat) (decimals : Int) : toStringHelper m decimals =
    if decimals ≥ 0 ∨ m ≠ 0 then
      toStringHelper (m / 10 : Nat) (decimals - 1) ++
        ((if decimals = 1 then [46] else []) ++ [digit (m % 10)])
    else [] := by
  have hdiv : (m : Int).tdiv 10 = (m / 10 : Nat) := rfl
  have hmod : (m : Int).tmod 10 = (m % 10 : Nat) := rfl
  have hdigit : UInt8.ofInt (48 + (m : Int).tmod 10) = digit (m % 10) := by
    have hnat : ((48 + (m % 10 : Nat) : Int) % 2 ^ 8).toNat = 48 + m % 10 := by omega
    rw [hmod, digit, UInt8.ofInt, hnat]
  rw [toStringHelper, hdigit, hdiv]
  simp only [ne_eq, Int.natCast_eq_zero]

/-- Past the decimals, digits come while there are any left. -/
theorem toStringHelper_whole (m : Nat) {decimals : Int} (h : decimals < 0) :
    toStringHelper m decimals = if m = 0 then [] else wholeDigits m := by
  induction m using Nat.strong_induction_on generalizing decimals with
  | _ m ih =>
    have hneg : ¬ decimals ≥ 0 := by omega
    have hone : ¬ decimals = 1 := by omega
    rw [toStringHelper_nat]
    by_cases hz : m = 0
    · simp [hz, hneg]
    · simp only [hneg, hz, hone, false_or, ne_eq, not_false_eq_true, ↓reduceIte, List.nil_append]
      rw [ih (m / 10) (by omega) (by omega), ← wholeDigits_step]

theorem toStringHelper_spelled (d m : Nat) : toStringHelper m d = spelled d m := by
  induction d generalizing m with
  | zero =>
    rw [toStringHelper_nat, spelled]
    simp only [Int.natCast_zero, ge_iff_le, Int.le_refl, true_or, ↓reduceIte, Int.zero_sub,
      zero_ne_one, List.nil_append, Nat.pow_zero, Nat.div_one, List.append_nil]
    rw [toStringHelper_whole _ (by decide), ← wholeDigits_step]
  | succ d ih =>
    have hpos : ((d + 1 : Nat) : Int) ≥ 0 := by omega
    have hnext : ((d + 1 : Nat) : Int) - 1 = d := by omega
    have hdot : ((d + 1 : Nat) : Int) = 1 ↔ d = 0 := by omega
    rw [toStringHelper_nat, if_pos (Or.inl hpos), hnext, ih, spelled, spelled,
      Nat.div_div_eq_div_mul, ← Nat.pow_succ']
    simp only [hdot]
    by_cases hd : d = 0
    · simp [hd, fractionDigits]
    · simp [hd, fractionDigits]

def natural (n : Nat) (h : n < 2 ^ 63) : BaseType := ⟨n, by unfold Fits; omega⟩

theorem checked_nat {n : Nat} {m : Int} (h : n < 2 ^ 63) (he : m = n) :
    checked m = .ok (natural n h) := by
  subst he
  exact checked_ok _

/-- One digit is read. -/
theorem readLoop_digit {n : Nat} {decs decimals : Int} (hc : isDigit c = true) (hn : n < 2 ^ 63)
    (hfit : n * 10 + (c.toNat - 48) < 2 ^ 63) (hdecs : dot = true → decs + 1 ≤ decimals) :
    readLoop decimals (c :: rest) (natural n hn) dot decs =
      readLoop decimals rest (natural (n * 10 + (c.toNat - 48)) hfit) dot
        (if dot then decs + 1 else decs) := by
  have hten : checked ((natural n hn).val * 10) = .ok (natural (n * 10) (by omega)) :=
    checked_nat _ (by simp [natural])
  have hge : 48 ≤ c.toNat := by
    simp only [isDigit, Bool.and_eq_true, decide_eq_true_eq, UInt8.le_iff_toNat_le] at hc
    exact hc.1
  have hsum : checked ((natural (n * 10) (by omega)).val + (c.toNat - 48)) =
      .ok (natural (n * 10 + (c.toNat - 48)) hfit) := by
    apply checked_nat
    simp only [natural]
    omega
  rw [readLoop, if_pos hc, hten]
  simp only [bind, Except.bind]
  rw [hsum]
  cases dot with
  | false => rfl
  | true =>
    have hnot : ¬ decs + 1 > decimals := by
      have := hdecs rfl
      omega
    simp [hnot]

/-- A run of digits is read, as far as the decimals go and the number fits. -/
theorem readLoop_digits {n : Nat} (dot : Bool) (decs decimals : Int)
    (hds : ∀ c ∈ ds, isDigit c = true) (hn : n < 2 ^ 63)
    (hfit : n * 10 ^ ds.length + value 10 (digitValues ds) < 2 ^ 63)
    (hdecs : dot = true → decs + ds.length ≤ decimals) (rest : Str) :
    readLoop decimals (ds ++ rest) (natural n hn) dot decs =
      readLoop decimals rest (natural (n * 10 ^ ds.length + value 10 (digitValues ds)) hfit) dot
        (if dot then decs + ds.length else decs) := by
  induction ds generalizing n decs with
  | nil => simp [digitValues]
  | cons c ds ih =>
    have hvalue : n * 10 ^ (c :: ds).length + value 10 (digitValues (c :: ds)) =
        (n * 10 + (c.toNat - 48)) * 10 ^ ds.length + value 10 (digitValues ds) := by
      simp only [digitValues, List.map_cons, value_cons, List.length_cons, List.length_map,
        Nat.pow_succ]
      ring
    simp only [hvalue] at hfit ⊢
    have hless : n * 10 + (c.toNat - 48) < 2 ^ 63 := by
      have hpow := Nat.le_mul_of_pos_right (n * 10 + (c.toNat - 48)) (Nat.pow_pos (n := ds.length)
        (show 0 < 10 by decide))
      omega
    have hone : dot = true → decs + 1 ≤ decimals := by
      intro h
      have := hdecs h
      simp only [List.length_cons] at this
      omega
    rw [List.cons_append, readLoop_digit (hds c List.mem_cons_self) hn hless hone,
      ih _ (fun d hd => hds d (List.mem_cons_of_mem _ hd)) hless hfit]
    · have hcount : decs + 1 + ds.length = decs + (c :: ds).length := by
        simp only [List.length_cons]
        omega
      cases dot with
      | false => rfl
      | true => simp only [↓reduceIte, hcount]
    · intro h
      have := hdecs h
      simp only [h, List.length_cons, ↓reduceIte] at this ⊢
      omega

theorem readLoop_spelled (d m : Nat) (hm : m < 2 ^ 63) :
    readLoop d (spelled d m) ⟨0, by decide⟩ false 0 = .ok (natural m hm, d) := by
  obtain ⟨hwhole, hwholeValue⟩ := wholeDigits_spec (m / 10 ^ d)
  obtain ⟨hlen, hfraction, hfractionValue⟩ := fractionDigits_spec d m
  have hle : m / 10 ^ d < 2 ^ 63 := Nat.lt_of_le_of_lt (Nat.div_le_self _ _) hm
  have hzero : (⟨0, by decide⟩ : BaseType) = natural 0 (by decide) := rfl
  have hfit : 0 * 10 ^ (wholeDigits (m / 10 ^ d)).length +
      value 10 (digitValues (wholeDigits (m / 10 ^ d))) <
      2 ^ 63 := by
    rw [hwholeValue]
    omega
  rw [spelled, hzero, readLoop_digits false 0 d hwhole _ hfit (by simp)]
  simp only [hwholeValue, Nat.zero_mul, Nat.zero_add]
  by_cases hd : d = 0
  · subst hd
    simp [readLoop, Nat.div_one]
  · have hsplit : m / 10 ^ d * 10 ^ d + m % 10 ^ d = m := Nat.div_add_mod' m (10 ^ d)
    have hall : m / 10 ^ d * 10 ^ (fractionDigits d m).length +
        value 10 (digitValues (fractionDigits d m)) < 2 ^ 63 := by
      rw [hlen, hfractionValue, hsplit]
      exact hm
    have hread := readLoop_digits true 0 d hfraction hle hall
      (by simp [hlen]) []
    simp only [hlen, hfractionValue, hsplit, List.append_nil] at hread
    have hdot : isDigit 46 = false := rfl
    simp only [hd, ↓reduceIte, readLoop, hdot, Bool.false_eq_true]
    rw [hread]
    simp [readLoop]

/-- `to_string` spells the number without its sign, after the sign. -/
theorem toText_spelled (d : Nat) (v : BaseType) (hmin : v.val ≠ -2 ^ 63) :
    (⟨v⟩ : Decimal d).toText =
      .ok ((if v.val < 0 then [45] else []) ++ spelled d v.val.natAbs) := by
  have hzeros : (-(d : Int)).toNat = 0 := by omega
  obtain ⟨v, hlow, hhigh⟩ := v
  have hnmin : v ≠ -2 ^ 63 := hmin
  simp only [Decimal.toText, hzeros, List.replicate_zero, List.append_nil, Int.toNat_natCast]
  rcases Int.lt_trichotomy v 0 with hneg | rfl | hpos
  · have hne : ¬ v = 0 := by omega
    have habs : -v = (v.natAbs : Int) := by omega
    have hchecked : checked (-v) = .ok (natural v.natAbs (by omega)) := checked_nat _ habs
    simp [hne, hneg, hchecked, natural, toStringHelper_spelled, bind, Except.bind, pure,
      Except.pure, -Nat.cast_natAbs]
  · have hzero (d : Nat) : fractionDigits d 0 = List.replicate d 48 := by
      induction d with
      | zero => rfl
      | succ d ih =>
        rw [fractionDigits, Nat.zero_div, ih, List.replicate_succ']
        rfl
    by_cases hd : d = 0
    · simp [hd, spelled, wholeDigits, digit]
    · simp [hd, Nat.pos_of_ne_zero hd, spelled, wholeDigits, hzero, digit]
  · have hne : ¬ v = 0 := by omega
    have hnot : ¬ v < 0 := by omega
    have habs : v = (v.natAbs : Int) := by omega
    have hhelper : toStringHelper v d = spelled d v.natAbs := by
      rw [habs]
      exact toStringHelper_spelled d v.natAbs
    simp [hne, hnot, hhelper, bind, Except.bind, pure, Except.pure]

/-- The constructor reads what was spelled, with or without a minus. -/
theorem ofText_spelled (d : Nat) (negative : Bool) (m : Nat) (hm : m < 2 ^ 63) :
    Decimal.ofText d ((if negative then [45] else []) ++ spelled d m) = (do
      let n ← if negative then checked (-(m : Int)) else pure (natural m hm)
      return ⟨n⟩) := by
  obtain ⟨c, rest, hc⟩ : ∃ c rest, spelled d m = c :: rest ∧ isDigit c = true := by
    obtain ⟨hwhole, -⟩ := wholeDigits_spec (m / 10 ^ d)
    obtain ⟨c, rest, hc⟩ := List.exists_cons_of_ne_nil (wholeDigits_ne_nil (m / 10 ^ d))
    exact ⟨c, _, by rw [spelled, hc]; rfl, hwhole c (by simp [hc])⟩
  obtain ⟨hcons, hdigit⟩ := hc
  have hminus : c ≠ 45 := by
    rintro rfl
    cases hdigit
  have hplus : c ≠ 43 := by
    rintro rfl
    cases hdigit
  have hread := readLoop_spelled d m hm
  rw [hcons] at hread ⊢
  cases negative with
  | true =>
    simp [Decimal.ofText, hplus, hread, timesTen, divideTen, natural, bind, Except.bind]
  | false =>
    simp [Decimal.ofText, hminus, hplus, hread, timesTen, divideTen, bind, Except.bind, pure,
      Except.pure]

/-- A decimal number in writing: a minus when it is negative, digits that start with no zero
unless it is the only one, and after a dot `d` more; no dot without decimals. -/
def WellSpelled (d : Nat) (negative : Bool) (text : Str) : Prop :=
  ∃ whole fraction, text = (if negative then [45] else []) ++
      (whole ++ if d = 0 then [] else 46 :: fraction) ∧
    (∀ c ∈ whole ++ fraction, isDigit c = true) ∧ whole ≠ [] ∧
    (whole.head? = some 48 → whole = [48]) ∧ fraction.length = d

/-- Every value but the least is read back from its text. -/
theorem decimal_text_round_trip (d : Nat) (v : BaseType) (hmin : v.val ≠ -2 ^ 63) :
    ∃ text, (⟨v⟩ : Decimal d).toText = .ok text ∧ Decimal.ofText d text = .ok ⟨v⟩ ∧
      WellSpelled d (v.val < 0) text := by
  refine ⟨_, toText_spelled d v hmin, ?_, ?_⟩
  · obtain ⟨v, hlow, hhigh⟩ := v
    have hnmin : v ≠ -2 ^ 63 := hmin
    have hread := ofText_spelled d (v < 0) v.natAbs (by omega)
    simp only [decide_eq_true_eq] at hread
    rw [hread]
    by_cases hneg : v < 0
    · have habs : -(v.natAbs : Int) = v := by omega
      simp [hneg, habs, checked_ok (show Fits v from ⟨hlow, hhigh⟩), bind, Except.bind, pure,
        Except.pure, -Nat.cast_natAbs]
    · have habs : (v.natAbs : Int) = v := by omega
      simp [hneg, natural, habs, bind, Except.bind, pure, Except.pure]
  · obtain ⟨hwhole, -⟩ := wholeDigits_spec (v.val.natAbs / 10 ^ d)
    obtain ⟨hlen, hfraction, -⟩ := fractionDigits_spec d v.val.natAbs
    refine ⟨wholeDigits (v.val.natAbs / 10 ^ d), fractionDigits d v.val.natAbs, ?_, ?_,
      wholeDigits_ne_nil _, wholeDigits_head _, hlen⟩
    · simp [spelled]
    · intro c hc
      exact (List.mem_append.mp hc).elim (hwhole c) (hfraction c)

theorem half_read_back : ∃ text, (⟨⟨-5, by decide⟩⟩ : Decimal (1 : Nat)).toText = .ok text ∧
    Decimal.ofText (1 : Nat) text = .ok ⟨⟨-5, by decide⟩⟩ ∧ WellSpelled 1 true text :=
  decimal_text_round_trip 1 ⟨-5, by decide⟩ (by decide)

end NostrServer.Telemetry
