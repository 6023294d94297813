import NostrServer.DataParts
import NostrServer.Lib.Checking

namespace NostrServer.Bech32

open Words Checking

def checks : Set UInt32 := {chk | chk.toNat < 2 ^ 30}

/-- The lowest bits of what is added show which bits were shifted out. -/
theorem generator_low (t u : UInt32) (ht : t.toNat < 32) (hu : u.toNat < 32)
    (h : generator t &&& 31 = generator u &&& 31) : t = u := by
  have hall : ∀ i j : Fin 32, generator (UInt32.ofNat i.val) &&& 31 =
      generator (UInt32.ofNat j.val) &&& 31 → i = j := by decide +kernel
  have hij := hall ⟨t.toNat, ht⟩ ⟨u.toNat, hu⟩ (by simpa using h)
  have hval : (⟨t.toNat, ht⟩ : Fin 32).val = (⟨u.toNat, hu⟩ : Fin 32).val := congrArg Fin.val hij
  exact UInt32.toNat_inj.mp hval

theorem upper_lt {chk : UInt32} (h : chk ∈ checks) : (chk >>> 25).toNat < 32 := by
  have hlt : chk.toNat < 2 ^ 30 := h
  rw [show (25 : UInt32) = UInt32.ofNat 25 from rfl, shiftRight_toNat chk 25 (by decide)]
  omega

/-- The bits that stay, moved up, leave the lowest five free. -/
theorem lower_shifted (chk : UInt32) :
    ((chk &&& 0x1ffffff) <<< 5).toNat = chk.toNat % 2 ^ 25 * 32 := by
  have hmask : (chk &&& 0x1ffffff).toNat = chk.toNat % 2 ^ 25 := by
    rw [UInt32.toNat_and]
    exact Nat.and_two_pow_sub_one_eq_mod _ 25
  rw [show (5 : UInt32) = UInt32.ofNat 5 from rfl, shiftLeft_toNat _ 5 (by decide), hmask]
  omega

theorem low_free (chk : UInt32) : (chk &&& 0x1ffffff) <<< 5 &&& 31 = 0 := by
  apply UInt32.toNat_inj.mp
  rw [UInt32.toNat_and, lower_shifted]
  have h31 : (31 : UInt32).toNat = 2 ^ 5 - 1 := rfl
  rw [h31, Nat.and_two_pow_sub_one_eq_mod]
  exact Nat.mul_mod_left _ _

/-- A step keeps states apart. -/
theorem polymodStep_injOn (v : UInt8) : Set.InjOn (fun chk => polymodStep chk v) checks := by
  intro a ha b hb h
  have hsum : (a &&& 0x1ffffff) <<< 5 ^^^ generator (a >>> 25) =
      (b &&& 0x1ffffff) <<< 5 ^^^ generator (b >>> 25) := by
    have hv : ∀ chk, polymodStep chk v =
        ((chk &&& 0x1ffffff) <<< 5 ^^^ generator (chk >>> 25)) ^^^ v.toUInt32 := by
      intro chk
      unfold polymodStep
      ac_rfl
    have h' : polymodStep a v = polymodStep b v := h
    rw [hv, hv] at h'
    exact UInt32.xor_left_inj _ |>.mp h'
  have hupper : a >>> 25 = b >>> 25 := by
    apply generator_low _ _ (upper_lt ha) (upper_lt hb)
    have hlow := congrArg (· &&& 31) hsum
    simpa only [xor_and, low_free, UInt32.zero_xor] using hlow
  have hlower : a.toNat % 2 ^ 25 = b.toNat % 2 ^ 25 := by
    rw [hupper] at hsum
    have hshifted := congrArg UInt32.toNat (UInt32.xor_left_inj _ |>.mp hsum)
    rw [lower_shifted, lower_shifted] at hshifted
    omega
  have hdiv : a.toNat / 2 ^ 25 = b.toNat / 2 ^ 25 := by
    rw [← shiftRight_toNat a 25 (by decide), ← shiftRight_toNat b 25 (by decide)]
    exact congrArg UInt32.toNat hupper
  apply UInt32.toNat_inj.mp
  rw [← Nat.div_add_mod a.toNat (2 ^ 25), ← Nat.div_add_mod b.toNat (2 ^ 25), hdiv, hlower]

theorem value_toNat (m : UInt32) {k : Nat} (hk : 5 * k < 32) :
    ((m >>> UInt32.ofNat (5 * k)) &&& 31).toUInt8 = UInt8.ofNat (m.toNat / 2 ^ (5 * k) % 32) := by
  have h31 : (31 : UInt32).toNat = 2 ^ 5 - 1 := rfl
  apply UInt8.toNat_inj.mp
  rw [UInt32.toNat_toUInt8, UInt32.toNat_and, h31, Nat.and_two_pow_sub_one_eq_mod,
    shiftRight_toNat m _ hk, UInt8.toNat_ofNat']

def wordOf : Str → Nat
  | [] => 0
  | v :: w => v.toNat * 2 ^ (5 * w.length) + wordOf w

theorem wordOf_lt {w : Str} (h : ∀ v ∈ w, v ≤ 31) : wordOf w < 2 ^ (5 * w.length) := by
  induction w with
  | nil => simp [wordOf]
  | cons v w ih =>
    have hw := ih (fun u hu => h u (by simp [hu]))
    have hv : v.toNat ≤ 31 := UInt8.le_iff_toNat_le.mp (h v (by simp))
    have hpow : 2 ^ (5 * (w.length + 1)) = 32 * 2 ^ (5 * w.length) := by
      rw [Nat.mul_succ, Nat.pow_add, Nat.mul_comm]
    rw [wordOf, List.length_cons, hpow]
    calc v.toNat * 2 ^ (5 * w.length) + wordOf w
        < v.toNat * 2 ^ (5 * w.length) + 2 ^ (5 * w.length) := Nat.add_lt_add_left hw _
      _ = (v.toNat + 1) * 2 ^ (5 * w.length) := (Nat.succ_mul _ _).symm
      _ ≤ 32 * 2 ^ (5 * w.length) := Nat.mul_le_mul_right _ (by omega)

/-- The number says what the values are. -/
theorem lowValues_wordOf {w : Str} (h : ∀ v ∈ w, v ≤ 31) (hk : w.length ≤ 6) (high : Nat)
    (m : UInt32) (hm : m.toNat = high * 2 ^ (5 * w.length) + wordOf w) :
    lowValues m w.length = w := by
  induction w generalizing high with
  | nil => rfl
  | cons v w ih =>
    have hw : wordOf w < 2 ^ (5 * w.length) := wordOf_lt (fun u hu => h u (by simp [hu]))
    have hv : v.toNat ≤ 31 := UInt8.le_iff_toNat_le.mp (h v (by simp))
    simp only [List.length_cons] at hk
    have hpow : 2 ^ (5 * (w.length + 1)) = 32 * 2 ^ (5 * w.length) := by
      rw [Nat.mul_succ, Nat.pow_add, Nat.mul_comm]
    have hsplit : m.toNat = (high * 32 + v.toNat) * 2 ^ (5 * w.length) + wordOf w := by
      rw [hm, List.length_cons, wordOf, hpow, Nat.add_mul, Nat.mul_assoc, Nat.add_assoc]
    have hvalue : ((m >>> UInt32.ofNat (5 * w.length)) &&& 31).toUInt8 = v := by
      rw [value_toNat m (by omega), hsplit, Nat.mul_comm, Nat.mul_add_div (Nat.two_pow_pos _),
        Nat.div_eq_of_lt hw, Nat.add_zero, Nat.mul_comm, Nat.mul_add_mod,
        Nat.mod_eq_of_lt (by omega)]
      exact UInt8.ofNat_toNat
    rw [List.length_cons, lowValues, hvalue,
      ih (fun u hu => h u (by simp [hu])) (by omega) _ hsplit]

/-- Six values or fewer come out of the check as they went in. -/
theorem six_values_told_apart {w w' : Str} (hw : ∀ v ∈ w, v ≤ 31) (hw' : ∀ v ∈ w', v ≤ 31)
    (hlen : w.length = w'.length) (hsix : w.length ≤ 6) (chk : UInt32)
    (h : w.foldl polymodStep chk = w'.foldl polymodStep chk) : w = w' := by
  have read {w : Str} (hw : ∀ v ∈ w, v ≤ 31) (hsix : w.length ≤ 6) :
      (UInt32.ofNat (wordOf w)).toNat = wordOf w ∧
      lowValues (UInt32.ofNat (wordOf w)) w.length = w ∧ w.foldl polymodStep chk =
        (List.replicate w.length 0).foldl polymodStep chk ^^^ UInt32.ofNat (wordOf w) := by
    have hlt := wordOf_lt hw
    have hpow : 2 ^ (5 * w.length) ≤ 2 ^ 30 := Nat.pow_le_pow_right (by decide) (by omega)
    have hnat : (UInt32.ofNat (wordOf w)).toNat = wordOf w :=
      UInt32.toNat_ofNat_of_lt' (Nat.lt_of_lt_of_le hlt (Nat.le_trans hpow (by decide)))
    have hvalues := lowValues_wordOf hw hsix 0 (UInt32.ofNat (wordOf w)) (by simp [hnat])
    have hhigh : UInt32.ofNat (wordOf w) >>> UInt32.ofNat (5 * w.length) = 0 := by
      apply UInt32.toNat_inj.mp
      rw [shiftRight_toNat _ _ (by omega), hnat, Nat.div_eq_of_lt hlt]
      rfl
    have hfold := foldl_lowValues (m := UInt32.ofNat (wordOf w)) (by omega) w.length hsix chk
    rw [hhigh, UInt32.xor_zero, hvalues] at hfold
    exact ⟨hnat, hvalues, hfold⟩
  obtain ⟨hnat, hvalues, hfold⟩ := read hw hsix
  obtain ⟨hnat', hvalues', hfold'⟩ := read hw' (hlen ▸ hsix)
  rw [hfold, hfold', ← hlen] at h
  have hword : UInt32.ofNat (wordOf w) = UInt32.ofNat (wordOf w') := UInt32.xor_right_inj _ |>.mp h
  rw [← hvalues, ← hvalues', hword, hlen]

theorem burst_told_apart {before w w' after : Str} (hw : ∀ v ∈ w, v ≤ 31)
    (hw' : ∀ v ∈ w', v ≤ 31) (hlen : w.length = w'.length) (hsix : w.length ≤ 6)
    (h : polymod (before ++ w ++ after) = polymod (before ++ w' ++ after)) : w = w' := by
  have hstart : (1 : UInt32) ∈ checks := by
    change (1 : UInt32).toNat < 2 ^ 30
    decide
  exact window_told_apart (fun chk _ v => polymodStep_lt chk v) polymodStep_injOn hstart
    (fun chk _ hfold => six_values_told_apart hw hw' hlen hsix chk hfold) h

theorem rejectIf_ok (h : rejectIf c text = .ok ()) : c = false := by
  cases c with
  | false => rfl
  | true => cases h

theorem not_mem_of_findLastOf (h : findLastOf c s = none) : c ∉ s := by
  induction s with
  | nil => exact List.not_mem_nil
  | cons x s ih =>
    cases hs : findLastOf c s with
    | some j => simp [findLastOf, hs] at h
    | none =>
      have hx : x ≠ c := by simpa [findLastOf, hs] using h
      simp [hx.symm, ih hs]

/-- The last separator is the one after which there is no other. -/
theorem findLastOf_some (h : findLastOf c s = some i) :
    s = s.take i ++ c :: s.drop (i + 1) ∧ c ∉ s.drop (i + 1) := by
  induction s generalizing i with
  | nil => cases h
  | cons x s ih =>
    cases hs : findLastOf c s with
    | some j =>
      simp only [findLastOf, hs, Option.some.injEq] at h
      subst h
      obtain ⟨hparts, hlast⟩ := ih hs
      exact ⟨by simpa using hparts, by simpa using hlast⟩
    | none =>
      simp only [findLastOf, hs] at h
      split at h
      · rename_i hx
        cases h
        exact ⟨by simp [hx], by simpa using not_mem_of_findLastOf hs⟩
      · cases h

/-- A character of the charset stands for the value its lower case is the letter of. -/
theorem letter_charValue (hc : ¬ c > 127) (hv : charValue c ≠ -1) :
    letter (UInt8.ofNat (charValue c).toNat) = asciiLower c :=
  forall_byte (p := fun c => ¬ c > 127 → charValue c ≠ -1 →
    letter (UInt8.ofNat (charValue c).toNat) = asciiLower c) (by decide +kernel) c hc hv

theorem mapDP_letter (h : mapDP dp = .ok vs) : vs.map letter = convertToLowercase dp := by
  induction dp generalizing vs with
  | nil =>
    cases h
    rfl
  | cons c dp ih =>
    simp only [mapDP] at h
    split at h
    · cases h
    · rename_i hc
      split at h
      · cases h
      · rename_i hv
        split at h
        · rename_i rest hrest
          cases h
          simp [ih hrest, letter_charValue hc hv, convertToLowercase]
        · cases h

/-- The table has the letters of both cases. -/
theorem charValue_lower (c : UInt8) : charValue (asciiLower c) = charValue c :=
  forall_byte (p := fun c => charValue (asciiLower c) = charValue c) (by decide +kernel) c

theorem asciiLower_small (h : asciiLower c ≤ 126) : ¬ c > 127 :=
  forall_byte (p := fun c => asciiLower c ≤ 126 → ¬ c > 127) (by decide +kernel) c h

/-- Data is read by the values of its letters, whatever their case. -/
theorem mapDP_lower (hvs : ∀ v ∈ vs, v ≤ 31) (h : convertToLowercase dp = vs.map letter) :
    mapDP dp = .ok vs := by
  induction dp generalizing vs with
  | nil =>
    obtain rfl := List.map_eq_nil_iff.mp h.symm
    rfl
  | cons c dp ih =>
    obtain ⟨v, vs, rfl, hv, htail⟩ := List.map_eq_cons_iff.mp h.symm
    obtain ⟨-, hle, -, -, hread⟩ := letter_spec v (hvs v (by simp))
    have hc : ¬ c > 127 := asciiLower_small (by rw [← hv]; exact hle)
    have hvalue : charValue c = v.toNat := by rw [← charValue_lower c, ← hv, hread]
    have hvalid : ¬ (v.toNat : Int) = -1 := by omega
    have hrest := ih (fun u hu => hvs u (by simp [hu])) htail.symm
    simp [mapDP, hc, hvalue, hvalid, hrest]

theorem asciiLower_separator (h : asciiLower c = separator) : c = separator :=
  forall_byte (p := fun c => asciiLower c = separator → c = separator) (by decide +kernel) c h

def Encoding.constant : Encoding → UInt32
  | .invalid => 0
  | .bech32 => 1
  | .bech32m => M

structure Reads (text : Str) (r : DecodedResult) (hrp data values : Str) : Prop where
  wellFormed : rejectBStringThatIsntWellFormed text = .ok ()
  parts : text = hrp ++ separator :: data
  last : separator ∉ data
  mapped : mapDP data = .ok values
  named : 1 ≤ hrp.length ∧ hrp.length ≤ 83
  checked : 6 ≤ values.length
  result : r.hrp = convertToLowercase hrp ∧ r.dp = stripChecksum values
  polymod : polymod (expandHrp r.hrp ++ values) = r.encoding.constant

theorem mapDP_length (h : mapDP dp = .ok vs) : vs.length = dp.length := by
  have hlength := congrArg List.length (mapDP_letter h)
  simpa [convertToLowercase] using hlength

theorem wellFormed_checks (h : rejectBStringThatIsntWellFormed text = .ok ()) :
    text.length ≤ 90 ∧ separator ∈ text := by
  unfold rejectBStringThatIsntWellFormed at h
  obtain ⟨⟨⟩, -, h⟩ := bind_ok h
  obtain ⟨⟨⟩, hlong, h⟩ := bind_ok h
  obtain ⟨⟨⟩, -, h⟩ := bind_ok h
  obtain ⟨⟨⟩, -, hseparator⟩ := bind_ok h
  have hlength := rejectIf_ok hlong
  have hin := rejectIf_ok hseparator
  exact ⟨by simpa using hlength, by simpa using hin⟩

theorem decode_reads (h : decode text = .ok r) (he : r.encoding ≠ .invalid) :
    ∃ hrp data values, Reads text r hrp data values := by
  unfold decode at h
  obtain ⟨⟨⟩, hwell, h⟩ := bind_ok h
  obtain ⟨⟨⟩, hshort, h⟩ := bind_ok h
  obtain ⟨⟨⟩, hlong, h⟩ := bind_ok h
  obtain ⟨⟨⟩, hdata, h⟩ := bind_ok h
  obtain ⟨values, hmapped, h⟩ := bind_ok h
  cases hpos : findLastOf separator text with
  | none => exact absurd (wellFormed_checks hwell).2 (not_mem_of_findLastOf hpos)
  | some pos =>
    obtain ⟨hparts, hlast⟩ := findLastOf_some hpos
    have hhrp : extractHumanReadablePart text = text.take pos := by
      simp [extractHumanReadablePart, hpos]
    have hdp : extractDataPart text = text.drop (pos + 1) := by simp [extractDataPart, hpos]
    rw [hhrp] at hshort hlong h
    rw [hdp] at hdata hmapped
    have hshort' := rejectIf_ok hshort
    have hlong' := rejectIf_ok hlong
    have hdata' := rejectIf_ok hdata
    simp only [decide_eq_false_iff_not, not_lt, gt_iff_lt] at hshort' hlong' hdata'
    rw [← mapDP_length hmapped] at hdata'
    refine ⟨text.take pos, text.drop (pos + 1), values, ?_⟩
    have made (hresult : r.hrp = convertToLowercase (text.take pos) ∧ r.dp = stripChecksum values)
        (hpolymod : polymod (expandHrp r.hrp ++ values) = r.encoding.constant) :
        Reads text r (text.take pos) (text.drop (pos + 1)) values :=
      ⟨hwell, hparts, hlast, hmapped, ⟨hshort', hlong'⟩, hdata', hresult, hpolymod⟩
    split at h
    · rename_i hverify
      cases h
      exact made ⟨rfl, rfl⟩ (of_decide_eq_true hverify)
    · split at h
      · rename_i hverify
        cases h
        exact made ⟨rfl, rfl⟩ (of_decide_eq_true hverify)
      · cases h
        exact absurd rfl he

theorem Reads.decodes {values : Str} (h : Reads text r hrp data values)
    (he : r.encoding ≠ .invalid) : decode text = .ok r := by
  obtain ⟨hhead, htail⟩ := extracted h.last hrp
  rw [← h.parts] at hhead htail
  have hsize := mapDP_length h.mapped
  have hshort : ¬ hrp.length < 1 := Nat.not_lt.mpr h.named.1
  have hlong : ¬ 83 < hrp.length := Nat.not_lt.mpr h.named.2
  have hdata : ¬ data.length < 6 := Nat.not_lt.mpr (hsize ▸ h.checked)
  simp only [decode, h.wellFormed, hhead, htail, rejectHRPTooShort, rejectHRPTooLong,
    rejectDPTooShort, hshort, hlong, hdata, decide_false, rejectIf_false, h.mapped]
  obtain ⟨encoding, name, dp⟩ := r
  obtain ⟨rfl, rfl⟩ := h.result
  have hpolymod := h.polymod
  cases encoding with
  | invalid => exact absurd rfl he
  | bech32m =>
    have hverify : verifyChecksum (convertToLowercase hrp) values = true := decide_eq_true hpolymod
    simp [bind, Except.bind, pure, Except.pure, hverify]
  | bech32 =>
    have hother : verifyChecksum (convertToLowercase hrp) values = false := by
      apply decide_eq_false
      rw [hpolymod]
      exact (by decide : ¬ (1 : UInt32) = M)
    have hverify : verifyChecksumUsingOriginalConstant (convertToLowercase hrp) values = true :=
      decide_eq_true hpolymod
    simp [bind, Except.bind, pure, Except.pure, hother, hverify]

def Encoding.checksum (e : Encoding) (hrp dp : Str) : Str :=
  checksumValues (polymod (expandHrp hrp ++ dp ++ List.replicate 6 0) ^^^ e.constant)

theorem Encoding.checksum_polymod (e : Encoding) (hrp dp : Str) :
    polymod (expandHrp hrp ++ (dp ++ e.checksum hrp dp)) = e.constant := by
  rw [← List.append_assoc]
  refine polymod_checksumValues (expandHrp hrp ++ dp) ?_
  cases e <;> decide

theorem Encoding.checksum_values (e : Encoding) (hrp dp : Str) :
    (e.checksum hrp dp).length = 6 ∧ ∀ v ∈ e.checksum hrp dp, v ≤ 31 :=
  ⟨checksumValues_length _, checksumValues_fit _⟩

/-- There is one checksum for a constant. -/
theorem checksum_unique {values : Str} (hvalues : ∀ v ∈ values, v ≤ 31) (hsix : 6 ≤ values.length)
    (e : Encoding) (h : polymod (expandHrp hrp ++ values) = e.constant) :
    values = stripChecksum values ++ e.checksum hrp (stripChecksum values) := by
  have hlast : values = stripChecksum values ++ values.drop (values.length - 6) :=
    (List.take_append_drop _ _).symm
  have hsize : (values.drop (values.length - 6)).length = 6 := by
    rw [List.length_drop]
    omega
  have hmade := e.checksum_polymod hrp (stripChecksum values)
  obtain ⟨hsum, hfit⟩ := e.checksum_values hrp (stripChecksum values)
  have hsame : values.drop (values.length - 6) = e.checksum hrp (stripChecksum values) := by
    apply @burst_told_apart (expandHrp hrp ++ stripChecksum values) _ _ []
      (fun v hv => hvalues v (List.mem_of_mem_drop hv)) hfit (hsize.trans hsum.symm)
      (Nat.le_of_eq hsize)
    rw [List.append_nil, List.append_nil, List.append_assoc, List.append_assoc, hmade, ← hlast, h]
  rw [← hsame]
  exact hlast

theorem mapToCharset_ok (h : mapToCharset data = .ok text) :
    (∀ v ∈ data, v ≤ 31) ∧ text = data.map letter := by
  induction data generalizing text with
  | nil =>
    cases h
    exact ⟨by simp, rfl⟩
  | cons v data ih =>
    simp only [mapToCharset] at h
    split at h
    · cases h
    · rename_i hv
      split at h
      · rename_i rest hrest
        cases h
        obtain ⟨hfit, rfl⟩ := ih hrest
        exact ⟨List.forall_mem_cons.mpr ⟨UInt8.not_lt.mp hv, hfit⟩, rfl⟩
      · cases h

/-- What is encoded, and how it is spelled. -/
theorem encodeBasis_ok_iff {checksumFunc : Str → Str → Str}
    (hsum : ∀ hrp dp, ∀ v ∈ checksumFunc hrp dp, v ≤ 31) :
    encodeBasis hrp dp checksumFunc = .ok text ↔
      (1 ≤ hrp.length ∧ hrp.length ≤ 83) ∧ hrp.length + dp.length + 7 ≤ 90 ∧ (∀ v ∈ dp, v ≤ 31) ∧
      text = convertToLowercase hrp ++
        separator :: (dp ++ checksumFunc (convertToLowercase hrp) dp).map letter := by
  constructor
  · intro h
    unfold encodeBasis at h
    obtain ⟨⟨⟩, hshort, h⟩ := bind_ok h
    obtain ⟨⟨⟩, hlong, h⟩ := bind_ok h
    obtain ⟨⟨⟩, hboth, h⟩ := bind_ok h
    obtain ⟨⟨⟩, -, h⟩ := bind_ok h
    obtain ⟨letters, hletters, h⟩ := bind_ok h
    have hshort' := rejectIf_ok hshort
    have hlong' := rejectIf_ok hlong
    have hboth' := rejectIf_ok hboth
    simp only [decide_eq_false_iff_not, not_lt, gt_iff_lt] at hshort' hlong' hboth'
    obtain ⟨hfit, rfl⟩ := mapToCharset_ok hletters
    cases h
    exact ⟨⟨hshort', hlong'⟩, hboth', fun v hv => hfit v (List.mem_append_left _ hv), by simp⟩
  · rintro ⟨⟨hshort, hlong⟩, hboth, hfit, rfl⟩
    have hvalues : dp.any (fun c => c > 31 && c < 128) = false := by
      rw [List.any_eq_false]
      intro v hv
      simp [UInt8.not_lt.mpr (hfit v hv)]
    have hall : ∀ v ∈ dp ++ checksumFunc (convertToLowercase hrp) dp, v ≤ 31 := by
      intro v hv
      rcases List.mem_append.mp hv with hv | hv
      · exact hfit v hv
      · exact hsum _ _ v hv
    have h1 : ¬ hrp.length < 1 := by omega
    have h83 : ¬ 83 < hrp.length := by omega
    have h90 : ¬ 90 < hrp.length + dp.length + 1 + 6 := by omega
    simp only [encodeBasis, rejectHRPTooShort, rejectHRPTooLong, rejectBothPartsTooLong,
      rejectDataValuesOutOfRange, hvalues, gt_iff_lt, h1, h83, h90, decide_false, rejectIf_false,
      mapToCharset_eq hall]
    simp [bind, Except.bind, pure, Except.pure]

theorem lower_text (hrp data : Str) : convertToLowercase (hrp ++ separator :: data) =
    convertToLowercase hrp ++ separator :: convertToLowercase data := by
  have hseparator : asciiLower separator = separator := by decide
  simp [convertToLowercase, hseparator]

theorem lower_lower (s : Str) :
    convertToLowercase (convertToLowercase s) = convertToLowercase s := by
  have hlower (c : UInt8) : asciiLower (asciiLower c) = asciiLower c :=
    forall_byte (p := fun c => asciiLower (asciiLower c) = asciiLower c) (by decide +kernel) c
  simp [convertToLowercase, hlower]

/-- A text is read as the parts that it, in lower case, is the encoding of. -/
theorem decode_iff_encodeBasis (text : Str) (r : DecodedResult) (he : r.encoding ≠ .invalid) :
    decode text = .ok r ↔ rejectBStringThatIsntWellFormed text = .ok () ∧
      convertToLowercase r.hrp = r.hrp ∧
      encodeBasis r.hrp r.dp r.encoding.checksum = .ok (convertToLowercase text) := by
  rw [encodeBasis_ok_iff (fun hrp dp => (r.encoding.checksum_values hrp dp).2)]
  constructor
  · intro h
    obtain ⟨hrp, data, values, hreads⟩ := decode_reads h he
    obtain ⟨hname, hdp⟩ := hreads.result
    have hfit := mapDP_fits hreads.mapped
    have hsize := mapDP_length hreads.mapped
    have hlong := (wellFormed_checks hreads.wellFormed).1
    have hstrip : (stripChecksum values).length = values.length - 6 := by
      rw [stripChecksum, List.length_take]
      omega
    have hlower : convertToLowercase r.hrp = r.hrp := by rw [hname, lower_lower]
    have hnamed : r.hrp.length = hrp.length := by simp [hname, convertToLowercase]
    have hunique := checksum_unique hfit hreads.checked r.encoding hreads.polymod
    refine ⟨hreads.wellFormed, hlower, hnamed ▸ hreads.named, ?_, ?_, ?_⟩
    · rw [hreads.parts, List.length_append, List.length_cons] at hlong
      have hchecked := hreads.checked
      rw [hdp]
      omega
    · rw [hdp]
      exact fun v hv => hfit v (List.mem_of_mem_take hv)
    · rw [hlower, hdp, ← hunique, mapDP_letter hreads.mapped, hname, hreads.parts, lower_text]
  · rintro ⟨hwell, hlower, hnamed, hboth, hfit, hspelled⟩
    rw [hlower] at hspelled
    obtain ⟨hrp, tail, rfl, hhrp, htail⟩ := List.map_eq_append_iff.mp hspelled
    obtain ⟨c, data, rfl, hc, hdata⟩ := List.map_eq_cons_iff.mp htail
    obtain rfl := asciiLower_separator hc
    obtain ⟨hsix, hsum⟩ := r.encoding.checksum_values r.hrp r.dp
    have hvalues : ∀ v ∈ r.dp ++ r.encoding.checksum r.hrp r.dp, v ≤ 31 := by
      intro v hv
      rcases List.mem_append.mp hv with hv | hv
      · exact hfit v hv
      · exact hsum v hv
    have hsize : hrp.length = r.hrp.length := by
      rw [← hhrp, List.length_map]
    have hreads : Reads (hrp ++ separator :: data) r hrp data
        (r.dp ++ r.encoding.checksum r.hrp r.dp) := by
      refine ⟨hwell, rfl, ?_, mapDP_lower hvalues hdata, hsize ▸ hnamed, ?_, ⟨hhrp.symm, ?_⟩, ?_⟩
      · intro hin
        have hlow : asciiLower separator ∈ data.map asciiLower := List.mem_map_of_mem hin
        rw [hdata] at hlow
        obtain ⟨v, hv, hletter⟩ := List.mem_map.mp hlow
        exact (letter_spec v (hvalues v hv)).2.2.2.1 (hletter.trans (by decide))
      · rw [List.length_append, hsix]
        omega
      · simp [stripChecksum, hsix]
      · exact r.encoding.checksum_polymod r.hrp r.dp
    exact hreads.decodes he

/-- A text is read as the parts that it, in lower case, is the encoding of, and as no others. -/
theorem decode_iff_encode (text hrp dp : Str) :
    (decode text = .ok ⟨.bech32m, hrp, dp⟩ ↔ rejectBStringThatIsntWellFormed text = .ok () ∧
      convertToLowercase hrp = hrp ∧ encode hrp dp = .ok (convertToLowercase text)) ∧
    (decode text = .ok ⟨.bech32, hrp, dp⟩ ↔ rejectBStringThatIsntWellFormed text = .ok () ∧
      convertToLowercase hrp = hrp ∧
      encodeUsingOriginalConstant hrp dp = .ok (convertToLowercase text)) :=
  ⟨decode_iff_encodeBasis text ⟨.bech32m, hrp, dp⟩ Encoding.noConfusion,
    decode_iff_encodeBasis text ⟨.bech32, hrp, dp⟩ Encoding.noConfusion⟩

theorem mapDP_append (h : mapDP (dp ++ dp') = .ok vs) :
    ∃ ws ws', mapDP dp = .ok ws ∧ mapDP dp' = .ok ws' ∧ vs = ws ++ ws' := by
  induction dp generalizing vs with
  | nil => exact ⟨[], vs, rfl, h, rfl⟩
  | cons c dp ih =>
    simp only [List.cons_append, mapDP] at h ⊢
    split at h
    · cases h
    · rename_i hc
      split at h
      · cases h
      · rename_i hv
        split at h
        · rename_i rest hrest
          cases h
          obtain ⟨ws, ws', hws, hws', rfl⟩ := ih hrest
          refine ⟨_ :: ws, ws', ?_, hws', rfl⟩
          simp [hc, hv, hws]
        · cases h

/-- The last separator is found where no other follows. -/
theorem decode_reads_data (hdata : separator ∉ data)
    (h : decode (hrp ++ separator :: data) = .ok r) (he : r.encoding ≠ .invalid) :
    ∃ values, Reads (hrp ++ separator :: data) r hrp data values := by
  obtain ⟨hrp', data', values, hreads⟩ := decode_reads h he
  obtain ⟨hhead, htail⟩ := extracted hdata hrp
  obtain ⟨hhead', htail'⟩ := extracted hreads.last hrp'
  rw [← hreads.parts] at hhead' htail'
  obtain rfl := hhead.symm.trans hhead'
  obtain rfl := htail.symm.trans htail'
  exact ⟨values, hreads⟩

/-- Six characters in a row of the data part, or fewer, are not taken for others by the
constant they were written with. -/
theorem burst_detected {hrp before burst burst' after : Str} {r r' : DecodedResult}
    (hdata : separator ∉ before ++ burst ++ after) (hdata' : separator ∉ before ++ burst' ++ after)
    (hsize : burst'.length = burst.length) (hsix : burst.length ≤ 6)
    (hburst : convertToLowercase burst' ≠ convertToLowercase burst)
    (h : decode (hrp ++ separator :: (before ++ burst ++ after)) = .ok r)
    (he : r.encoding ≠ .invalid)
    (h' : decode (hrp ++ separator :: (before ++ burst' ++ after)) = .ok r') :
    r'.encoding ≠ r.encoding := by
  intro hsame
  apply hburst
  obtain ⟨values, hreads⟩ := decode_reads_data hdata h he
  obtain ⟨values', hreads'⟩ := decode_reads_data hdata' h' (hsame ▸ he)
  obtain ⟨ws, vs, hws, hvs, rfl⟩ := mapDP_append hreads.mapped
  obtain ⟨us, w, hus, hw, rfl⟩ := mapDP_append hws
  obtain ⟨ws', vs', hws', hvs', rfl⟩ := mapDP_append hreads'.mapped
  obtain ⟨us', w', hus', hw', rfl⟩ := mapDP_append hws'
  cases hus.symm.trans hus'
  cases hvs.symm.trans hvs'
  have hname : r'.hrp = r.hrp := hreads'.result.1.trans hreads.result.1.symm
  have hchecks : polymod (expandHrp r.hrp ++ (us ++ w' ++ vs)) =
      polymod (expandHrp r.hrp ++ (us ++ w ++ vs)) := by
    rw [hreads.polymod, ← hname, hreads'.polymod, hsame]
  have hvalues : w' = w := by
    apply @burst_told_apart (expandHrp r.hrp ++ us) _ _ vs (mapDP_fits hw') (mapDP_fits hw)
    · rw [mapDP_length hw', mapDP_length hw, hsize]
    · rw [mapDP_length hw', hsize]
      exact hsix
    · simpa only [List.append_assoc] using hchecks
  rw [← mapDP_letter hw', ← mapDP_letter hw, hvalues]

def countdown : Str := (List.range 32).reverse.map UInt8.ofNat

theorem swapped_letters_detected :
    decode (str "abcdef1l7aum6echk45nj3s0wdvt2fg8x9yrzpqzd3ryx") =
      .ok ⟨.bech32m, str "abcdef", countdown⟩ ∧
    decode (str "abcdef1l7aum6echk45nj3s0wdvgf2t8x9yrzpqzd3ryx") = .ok {} ∧
    Encoding.invalid ≠ Encoding.bech32m :=
  ⟨by decide +kernel, by decide +kernel,
    @burst_detected (str "abcdef") (str "l7aum6echk45nj3s0wdv") (str "t2fg") (str "gf2t")
      (str "8x9yrzpqzd3ryx") ⟨.bech32m, str "abcdef", countdown⟩ {} (by decide +kernel)
      (by decide +kernel) (by decide +kernel) (by decide +kernel) (by decide +kernel)
      (by decide +kernel) (by decide) (by decide +kernel)⟩

end NostrServer.Bech32
