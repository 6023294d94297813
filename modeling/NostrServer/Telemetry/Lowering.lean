import NostrServer.Telemetry.Decimal
import NostrServer.Lib.Rounding

namespace NostrServer.Telemetry

open Rounding

/-- `5...5` with `k` digits: what the conversion adds in the end. -/
def fives (k : Nat) : Nat := 5 * repunit 10 k

theorem timesTen_val (h : timesTen k n = .ok p) : p.val = n.val * 10 ^ k := by
  induction k generalizing n with
  | zero =>
    cases h
    simp
  | succ k ih =>
    simp only [timesTen, bind, Except.bind] at h
    split at h
    · cases h
    · rename_i m hm
      unfold checked at hm
      split at hm
      · cases hm
        rw [ih h, Int.mul_assoc, Int.pow_succ']
      · cases hm

/-- Where its operations do not overflow, `divide_round` is what it is without bounds. -/
theorem divideRoundChecked_val (h : divideRoundChecked x y = .ok r) :
    r.val = divideRound x.val y.val := by
  have hval {m : Int} {n : BaseType} (h : checked m = .ok n) : n.val = m := by
    unfold checked at h
    split at h <;> cases h
    rfl
  simp only [divideRoundChecked, bind, Except.bind] at h
  split at h
  · cases h
  · rename_i half hhalf
    rw [divideRound, ← hval hhalf]
    by_cases hpos : x.val > 0
    · rw [if_pos hpos] at h ⊢
      split at h
      · cases h
      · rename_i sum hsum
        rw [hval h, hval hsum]
    · rw [if_neg hpos] at h ⊢
      split at h
      · cases h
      · rename_i sum hsum
        rw [hval h, hval hsum]

/-- A lowering to fewer decimals goes through any count of decimals between. -/
theorem lowerLoop_add (i j : Nat) (n : BaseType) :
    lowerLoop (i + j) n = lowerLoop i n >>= lowerLoop j := by
  induction i generalizing n with
  | zero =>
    rw [Nat.zero_add]
    rfl
  | succ i ih =>
    rw [Nat.succ_add]
    simp only [lowerLoop, bind, Except.bind] at ih ⊢
    cases checked (n.val + 5) with
    | error e => rfl
    | ok sum =>
      cases hq : checked (sum.val.tdiv 10) with
      | error e => simp [hq]
      | ok q => simp [hq, ih]

theorem lowerLoop_nat (k m : Nat) (n : BaseType) (hn : n.val = m) (hfit : m + 5 < 2 ^ 63) :
    ∃ r, lowerLoop k n = .ok r ∧ r.val = up 10 5 k m := by
  induction k generalizing m n with
  | zero => exact ⟨n, rfl, hn⟩
  | succ k ih =>
    have hsum : Fits (n.val + 5) := by
      unfold Fits
      omega
    have hquot : (n.val + 5).tdiv 10 = ((m + 5) / 10 : Nat) := by
      rw [hn]
      rfl
    have hq : Fits ((n.val + 5).tdiv 10) := by
      rw [hquot]
      unfold Fits
      omega
    obtain ⟨r, hr, hval⟩ := ih ((m + 5) / 10) ⟨_, hq⟩ hquot (by omega)
    refine ⟨r, ?_, hval⟩
    simp [lowerLoop, checked_ok hsum, checked_ok hq, hr, bind, Except.bind]

theorem lowerLoop_neg (k u : Nat) (n : BaseType) (hn : n.val = -(u : Int)) :
    ∃ r, lowerLoop k n = .ok r ∧ r.val = -(down 10 5 k u : Int) := by
  induction k generalizing u n with
  | zero => exact ⟨n, rfl, hn⟩
  | succ k ih =>
    obtain ⟨hlow, hhigh⟩ := n.property
    have hsum : Fits (n.val + 5) := by
      unfold Fits
      omega
    have hquot : (n.val + 5).tdiv 10 = -(((u - 5) / 10 : Nat) : Int) := by
      rcases Nat.le_total 5 u with hle | hle
      · have habs : n.val + 5 = -((u - 5 : Nat) : Int) := by omega
        rw [habs, Int.neg_tdiv]
        rfl
      · have habs : n.val + 5 = ((5 - u : Nat) : Int) := by omega
        have hzero : (5 - u) / 10 = (u - 5) / 10 := by omega
        have hnat : (((5 - u : Nat) : Int)).tdiv 10 = ((5 - u) / 10 : Nat) := rfl
        rw [habs, hnat, hzero, Nat.sub_eq_zero_of_le hle]
        rfl
    have hq : Fits ((n.val + 5).tdiv 10) := by
      rw [hquot]
      unfold Fits
      omega
    obtain ⟨r, hr, hval⟩ := ih ((u - 5) / 10) ⟨_, hq⟩ hquot
    refine ⟨r, ?_, hval⟩
    simp [lowerLoop, checked_ok hsum, checked_ok hq, hr, bind, Except.bind]

/-- What a value is lowered by `k` decimals to. -/
def lowered (k : Nat) (v : Int) : Int :=
  if 0 ≤ v then (((v.natAbs + fives k) / 10 ^ k : Nat) : Int)
  else -(((v.natAbs - fives k) / 10 ^ k : Nat) : Int)

theorem lowerLoop_lowered (k : Nat) (v : BaseType) (hfit : Fits (v.val + 5)) :
    ∃ r, lowerLoop k v = .ok r ∧ r.val = lowered k v.val := by
  unfold lowered fives
  split
  · rename_i hnonneg
    obtain ⟨-, hhigh⟩ := hfit
    rw [← up_eq (by decide)]
    exact lowerLoop_nat k v.val.natAbs v (by omega) (by omega)
  · rename_i hneg
    rw [← down_eq]
    exact lowerLoop_neg k v.val.natAbs v (by omega)

theorem divideRound_nearest (v : Int) (P : Nat) : divideRound v P =
    if 0 ≤ v then (((v.natAbs + P / 2) / P : Nat) : Int)
    else -(((v.natAbs + P / 2) / P : Nat) : Int) := by
  have hhalf : (P : Int).tdiv 2 = (P / 2 : Nat) := rfl
  rw [divideRound, hhalf]
  rcases Int.lt_trichotomy v 0 with hneg | rfl | hpos
  · have hsum : v - (P / 2 : Nat) = -((v.natAbs + P / 2 : Nat) : Int) := by omega
    rw [if_neg (by omega), if_neg (by omega), hsum, Int.neg_tdiv]
    rfl
  · have hsum : (0 : Int) - (P / 2 : Nat) = -((P / 2 : Nat) : Int) := by omega
    have hzero : P / 2 / P = 0 := by
      rw [Nat.div_div_eq_div_mul, Nat.mul_comm, ← Nat.div_div_eq_div_mul]
      rcases Nat.eq_zero_or_pos P with rfl | hP
      · rfl
      · rw [Nat.div_self hP]
    have hquot : (((P / 2 : Nat) : Int)).tdiv P = (P / 2 / P : Nat) := rfl
    rw [if_neg (by decide), if_pos (by decide), hsum, Int.neg_tdiv, hquot]
    simp [hzero]
  · have hsum : v + (P / 2 : Nat) = ((v.natAbs + P / 2 : Nat) : Int) := by omega
    rw [if_pos hpos, if_pos (by omega), hsum]
    rfl

/-- The values that step by step are lowered to what rounding once gives: of those that are
not negative the ones whose lowest `k` digits are below `4...45` or make at least a half,
of the negative ones those of less than a half. -/
def RoundsOnce (k : Nat) (v : Int) : Prop :=
  if 0 ≤ v then v % 10 ^ k + fives k < 10 ^ k ∨ 10 ^ k ≤ 2 * (v % 10 ^ k)
  else 2 * v.natAbs < 10 ^ k

instance (k : Nat) (v : Int) : Decidable (RoundsOnce k v) := by
  unfold RoundsOnce
  infer_instance

theorem tens (hk : 0 < k) :
    2 * (10 ^ k / 2) = 10 ^ k ∧ 10 ^ k ≤ 2 * fives k ∧ fives k < 10 ^ k := by
  obtain ⟨i, rfl⟩ := Nat.exists_eq_add_of_lt hk
  rw [Nat.zero_add]
  have hlow := pow_le_repunit 10 i
  have hhigh := repunit_lt 9 (i + 1)
  simp only [Nat.reduceAdd] at hhigh
  rw [fives, Nat.pow_succ] at *
  omega

theorem lowered_nearest_iff (hk : 0 < k) (v : Int) :
    lowered k v = divideRound v (10 ^ k : Nat) ↔ RoundsOnce k v := by
  obtain ⟨heven, hF, hlt⟩ := tens hk
  have hP : 0 < 10 ^ k := Nat.pow_pos (by decide)
  rw [divideRound_nearest, lowered, RoundsOnce]
  split
  · rename_i hnonneg
    obtain ⟨m, rfl⟩ := Int.eq_ofNat_of_zero_le hnonneg
    have h := added_nearest_iff hP heven hF hlt m
    rw [Int.natAbs_natCast, Int.natCast_inj, h]
    norm_cast
  · rw [Int.neg_inj, Int.natCast_inj]
    exact taken_nearest_iff hP heven hF _

theorem lowered_neg_iff (hk : 0 < k) (v : Int) :
    lowered k (-v) = -lowered k v ↔ v.natAbs + fives k < 10 ^ k := by
  obtain ⟨-, hF, hlt⟩ := tens hk
  have hP : 0 < 10 ^ k := Nat.pow_pos (by decide)
  have h := added_taken_iff hP hF v.natAbs
  unfold lowered
  rw [Int.natAbs_neg]
  rcases Int.lt_trichotomy v 0 with hneg | rfl | hpos
  · rw [if_pos (by omega), if_neg (by omega), Int.neg_neg, Int.natCast_inj, h]
  · simp [Nat.div_eq_of_lt hlt, hlt]
  · rw [if_neg (by omega), if_pos (by omega), Int.neg_inj, Int.natCast_inj, eq_comm, h]

theorem convert_lower {d₁ d₂ : Int} (h : d₂ < d₁) (v : BaseType) :
    Decimal.convert d₂ (⟨v⟩ : Decimal d₁) = (do return ⟨← lowerLoop (d₁ - d₂).toNat v⟩) := by
  have hnot : ¬ d₂ - d₁ > 0 := by omega
  have hneg : d₂ - d₁ < 0 := by omega
  have hcount : -(d₂ - d₁) = d₁ - d₂ := by omega
  simp only [Decimal.convert, if_neg hnot, if_pos hneg, hcount]

/-- Lowering in two conversions is lowering in one. -/
theorem convert_chain {d₁ d₂ d₃ : Int} (h : d₂ < d₁) (h' : d₃ < d₂) (v : BaseType) :
    (do Decimal.convert d₃ (← Decimal.convert d₂ (⟨v⟩ : Decimal d₁))) =
      Decimal.convert d₃ (⟨v⟩ : Decimal d₁) := by
  have hcount : (d₁ - d₃).toNat = (d₁ - d₂).toNat + (d₂ - d₃).toNat := by omega
  rw [convert_lower h, convert_lower (Int.lt_trans h' h), hcount, lowerLoop_add]
  simp only [bind, Except.bind, pure, Except.pure]
  cases lowerLoop (d₁ - d₂).toNat v with
  | error e => rfl
  | ok n => exact convert_lower h' n

/-- Lowering a value gives what `divide_round` gives exactly for the values that round once
as they do step by step; it commutes with the sign below `4...45`; and a chain of lowerings
is one. -/
theorem lowering_rounds_iff (d₁ d₂ : Int) (h : d₂ < d₁) (v : BaseType) (hfit : Fits (v.val + 5)) :
    ∃ n, Decimal.convert d₂ (⟨v⟩ : Decimal d₁) = .ok ⟨n⟩ ∧
      (n.val = divideRound v.val (10 ^ (d₁ - d₂).toNat) ↔ RoundsOnce (d₁ - d₂).toNat v.val) ∧
      (∀ p r, pow10 (d₁ - d₂) = .ok p → divideRoundChecked v p = .ok r →
        (n = r ↔ RoundsOnce (d₁ - d₂).toNat v.val)) ∧
      (∀ w : BaseType, w.val = -v.val → Fits (w.val + 5) →
        ∃ m, Decimal.convert d₂ (⟨w⟩ : Decimal d₁) = .ok ⟨m⟩ ∧
          (m.val = -n.val ↔ v.val.natAbs + fives (d₁ - d₂).toNat < 10 ^ (d₁ - d₂).toNat)) ∧
      ∀ d₃, d₃ < d₂ →
        Decimal.convert d₃ (⟨n⟩ : Decimal d₂) = Decimal.convert d₃ (⟨v⟩ : Decimal d₁) := by
  have hk : 0 < (d₁ - d₂).toNat := by omega
  obtain ⟨n, hn, hval⟩ := lowerLoop_lowered (d₁ - d₂).toNat v hfit
  have hconv : Decimal.convert d₂ (⟨v⟩ : Decimal d₁) = .ok ⟨n⟩ := by
    rw [convert_lower h, hn]
    rfl
  have honce := lowered_nearest_iff hk v.val
  rw [← hval] at honce
  push_cast at honce
  refine ⟨n, hconv, honce, ?_, ?_, ?_⟩
  · intro p r hp hr
    have hpow : p.val = 10 ^ (d₁ - d₂).toNat := (timesTen_val hp).trans (Int.one_mul _)
    rw [← honce, ← hpow, ← divideRoundChecked_val hr]
    exact Subtype.ext_iff
  · intro w hw hwfit
    obtain ⟨m, hm, hmval⟩ := lowerLoop_lowered (d₁ - d₂).toNat w hwfit
    refine ⟨m, ?_, ?_⟩
    · rw [convert_lower h, hm]
      rfl
    · rw [hmval, hval, hw]
      exact lowered_neg_iff hk v.val
  · intro d₃ h'
    have hchain := convert_chain h h' v
    rw [hconv] at hchain
    exact hchain

/-- One and a half, lowered to two. -/
theorem above_half_lowered : ∃ n, Decimal.convert 0 (⟨⟨15, by decide⟩⟩ : Decimal 1) = .ok ⟨n⟩ ∧
    n.val = divideRound 15 10 := by
  obtain ⟨n, hn, honce, -⟩ := lowering_rounds_iff 1 0 (by decide) ⟨15, by decide⟩ (by decide)
  exact ⟨n, hn, honce.mpr (by decide)⟩

/-- Minus one and a half is lowered to minus one, and rounded to minus two. -/
theorem minus_half_truncated : ¬ ∃ n,
    Decimal.convert 0 (⟨⟨-15, by decide⟩⟩ : Decimal 1) = .ok ⟨n⟩ ∧
      n.val = divideRound (-15) 10 := by
  have hconv : Decimal.convert 0 (⟨⟨-15, by decide⟩⟩ : Decimal 1) = .ok ⟨⟨-1, by decide⟩⟩ := by
    decide +kernel
  rintro ⟨n, hn, hval⟩
  cases hconv.symm.trans hn
  revert hval
  decide

end NostrServer.Telemetry
