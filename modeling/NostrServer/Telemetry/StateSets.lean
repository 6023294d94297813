import NostrServer.Telemetry.Collector

namespace NostrServer.Telemetry

variable {fmt : FloatFormat}

/-- Below the sign the mask is one bit. -/
theorem mask_bit (h : i < 31) (v : BitVec 64) :
    ((1#32 <<< i).signExtend 64 &&& v ≠ 0#64) ↔ v.getLsbD i = true := by
  have hmask : (1#32 <<< i).signExtend 64 = BitVec.twoPow 64 i :=
    (show ∀ j : Fin 31, (1#32 <<< j.val).signExtend 64 = BitVec.twoPow 64 j.val by decide) ⟨i, h⟩
  have hone : BitVec.twoPow 64 i ≠ 0#64 :=
    (show ∀ j : Fin 31, BitVec.twoPow 64 j.val ≠ 0#64 by decide) ⟨i, h⟩
  rw [hmask, BitVec.and_comm, BitVec.and_twoPow]
  by_cases hbit : v.getLsbD i = true
  · simp [hbit, hone]
  · simp [hbit]

/-- The sign is extended to all bits from the 31st on. -/
theorem mask_sign (v : BitVec 64) :
    ((1#32 <<< 31).signExtend 64 &&& v ≠ 0#64) ↔ 2 ^ 31 ≤ v.toNat := by
  have hmask (j : Nat) (hj : j < 64) :
      ((1#32 <<< 31).signExtend 64).getLsbD j = decide (31 ≤ j) :=
    (show ∀ j : Fin 64, ((1#32 <<< 31).signExtend 64).getLsbD j.val = decide (31 ≤ j.val) by
      decide) ⟨j, hj⟩
  constructor
  · intro h
    by_contra hlt
    apply h
    apply BitVec.eq_of_getLsbD_eq
    intro j hj
    rw [BitVec.getLsbD_and, hmask j hj, BitVec.getLsbD_zero]
    by_cases h31 : 31 ≤ j
    · have hle : v.toNat < 2 ^ j :=
        Nat.lt_of_lt_of_le (Nat.lt_of_not_le hlt) (Nat.pow_le_pow_right (by decide) h31)
      simp [BitVec.getLsbD, Nat.testBit_lt_two_pow hle]
    · simp [h31]
  · intro hle h
    obtain ⟨j, hj, hbit⟩ := Nat.exists_ge_and_testBit_of_ge_two_pow hle
    have hlt : j < 64 := by
      by_contra hge
      have hbig : v.toNat < 2 ^ j :=
        Nat.lt_of_lt_of_le v.isLt (Nat.pow_le_pow_right (by decide) (Nat.le_of_not_lt hge))
      simp [Nat.testBit_lt_two_pow hbig] at hbit
    have hzero := congrArg (fun b => b.getLsbD j) h
    simp only [BitVec.getLsbD_and, hmask j hlt] at hzero
    simp [hj, BitVec.getLsbD, hbit] at hzero

/-- The names for which the renderer's mask picks the bit of the name: the first 31, and the
32nd when that bit is set or none above it is. -/
theorem stateSelected_iff (i : Nat) (hi : i < 33) (val : UInt64) :
    stateSelected .stateSet (UInt64.ofNat i) val = .ok (val.toBitVec.getLsbD i) ↔
      i < 31 ∨ (i = 31 ∧ (val.toBitVec.getLsbD 31 = true ∨ val.toNat < 2 ^ 32)) := by
  have hidx : (UInt64.ofNat i).toNat = i := by
    rw [UInt64.toNat_ofNat']
    omega
  simp only [stateSelected, reduceCtorEq, ↓reduceIte, oneShifted, hidx]
  rcases Nat.lt_trichotomy i 31 with hlt | rfl | hgt
  · have hshift : i < 32 := by omega
    have hbit := mask_bit hlt val.toBitVec
    simp only [hshift, ↓reduceIte, hlt, true_or, iff_true, bind, Except.bind, pure, Except.pure]
    rw [Except.ok.injEq, Bool.eq_iff_iff, decide_eq_true_eq]
    exact hbit
  · have hsign : ((1#32 <<< 31).signExtend 64 &&& val.toBitVec ≠ 0) ↔ 2 ^ 31 ≤ val.toNat :=
      mask_sign val.toBitVec
    have hbit : val.toBitVec.getLsbD 31 = true ↔ val.toNat / 2 ^ 31 % 2 = 1 := by
      rw [BitVec.getLsbD, Nat.testBit_eq_decide_div_mod_eq, decide_eq_true_eq]
      rfl
    simp only [Nat.reduceLT, ↓reduceIte, bind, Except.bind, pure, Except.pure]
    rw [Except.ok.injEq, Bool.eq_iff_iff, decide_eq_true_eq, hsign, hbit]
    simp only [Nat.reducePow, true_and, false_or]
    omega
  · obtain rfl : i = 32 := by omega
    simp [bind, Except.bind]

theorem putInteger_selected (b b' : Bool) :
    putInteger (if b then 1 else 0) = putInteger (if b' then 1 else 0) ↔ b = b' := by
  have hone : putInteger 1 = [49] := by simp [putInteger, wholeDigits, digit]
  have hzero : putInteger 0 = [48] := by simp [putInteger, wholeDigits, digit]
  cases b <;> cases b' <;> simp [hone, hzero]

/-- The samples of a value: for each name 1 if its bit is set, and 0 otherwise. -/
def PrintsBits (ts : Timestamp) (pt : MetricPoint fmt) (stdef : StateDef) (val : UInt64) : Prop :=
  (renderValue ts pt).length = stdef.values.length ∧
  ∀ (i : Nat) (h : i < stdef.values.length), (renderValue ts pt)[i]? =
    some (renderMetricPoint pt.definition [] pt.attributes [(stdef.key, .string stdef.values[i])]
      (.ok (putInteger (if val.toBitVec.getLsbD i then 1 else 0))) ts)

theorem renderStates_sample (ts : Timestamp) (d : MetricDefinition)
    (attrs : Option (AttributeList fmt)) (stdef : StateDef) (val : UInt64) (i : Nat)
    (h : i < stdef.values.length) (b : Bool) :
    (renderStates ts d attrs stdef val)[i]? =
      some (renderMetricPoint d [] attrs [(stdef.key, .string stdef.values[i])]
        (.ok (putInteger (if b then 1 else 0))) ts) ↔
    stateSelected d.type (UInt64.ofNat i) val = .ok b := by
  have hget : stdef.values.zipIdx[i]? = some (stdef.values[i], i) := by
    simp [h]
  simp only [renderStates, List.getElem?_map, hget, Option.map_some, Option.some.injEq,
    renderMetricPoint, Line.sample.injEq, true_and, and_true]
  cases stateSelected d.type (UInt64.ofNat i) val with
  | error e => simp [bind, Except.bind]
  | ok b' =>
    simp only [bind, Except.bind, pure, Except.pure, Except.ok.injEq]
    exact putInteger_selected b' b

/-- A state set is printed bit by bit exactly when it has at most 31 names, or 32 and the
last bit is set or none above it. -/
theorem state_set_bits_iff (ts : Timestamp) (pt : MetricPoint fmt) (stdef : StateDef) (val : UInt64)
    (hvalue : pt.value = .state stdef val) (htype : pt.definition.type = .stateSet) :
    PrintsBits ts pt stdef val ↔ stdef.values.length ≤ 31 ∨
      (stdef.values.length = 32 ∧ (val.toBitVec.getLsbD 31 = true ∨ val.toNat < 2 ^ 32)) := by
  have hlines : renderValue ts pt = renderStates ts pt.definition pt.attributes stdef val := by
    simp [renderValue, hvalue]
  have hsample (i : Nat) (h : i < stdef.values.length) :=
    renderStates_sample ts pt.definition pt.attributes stdef val i h (val.toBitVec.getLsbD i)
  rw [htype] at hsample
  rw [PrintsBits, hlines]
  constructor
  · rintro ⟨-, hall⟩
    rcases Nat.lt_or_ge stdef.values.length 32 with hfew | hmany
    · exact Or.inl (Nat.le_of_lt_succ hfew)
    · have h31 := (stateSelected_iff 31 (by decide) val).mp ((hsample 31 hmany).mp (hall 31 hmany))
      have hlast := (h31.resolve_left (by decide)).2
      rcases Nat.eq_or_lt_of_le hmany with heq | hmore
      · exact Or.inr ⟨heq.symm, hlast⟩
      · have h32 := (stateSelected_iff 32 (by decide) val).mp
          ((hsample 32 hmore).mp (hall 32 hmore))
        rcases h32 with h32 | ⟨h32, -⟩ <;> omega
  · intro hfew
    refine ⟨by simp [renderStates], ?_⟩
    intro i h
    rw [hsample i h, stateSelected_iff i (by omega)]
    rcases hfew with hfew | ⟨hlen, hlast⟩
    · exact Or.inl (by omega)
    · rcases Nat.lt_or_ge i 31 with hlt | hge
      · exact Or.inl hlt
      · exact Or.inr ⟨by omega, hlast⟩

def fewStates : MetricPoint noFloats where
  definition := { type := .stateSet, identifier := str "state" }
  value := .state ⟨str "state", [str "idle", str "busy"]⟩ 2

theorem fewStates_printed :
    PrintsBits collectedAt fewStates ⟨str "state", [str "idle", str "busy"]⟩ 2 :=
  (state_set_bits_iff collectedAt fewStates _ 2 rfl rfl).mpr (Or.inl (by decide))

/-- 32 names, and a value whose 32nd bit is not set but the 33rd is. -/
def manyStates : StateDef := ⟨str "state", List.replicate 32 (str "on")⟩

theorem manyStates_misread : ¬ PrintsBits collectedAt
    ({ definition := { type := .stateSet, identifier := str "state" },
       value := .state manyStates 0x100000000 } : MetricPoint noFloats) manyStates 0x100000000 := by
  rintro ⟨-, hall⟩
  have hsample := (renderStates_sample collectedAt
    { type := .stateSet, identifier := str "state" } (none : Option (AttributeList noFloats))
    manyStates 0x100000000 31 (by decide) _).mp (hall 31 (by decide))
  have h31 := (stateSelected_iff 31 (by decide) 0x100000000).mp hsample
  revert h31
  decide

end NostrServer.Telemetry
