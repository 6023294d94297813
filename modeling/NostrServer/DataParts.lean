import NostrServer.Keys

namespace NostrServer

open Positional Words

namespace Bech32

/-- A character stands for five bits. -/
theorem charValue_fits (c : UInt8) : UInt8.ofNat (charValue c).toNat ≤ 31 := by
  have hall : ∀ i : Fin 256, UInt8.ofNat (reverseCharset.getD i.val 0).toNat ≤ 31 := by
    decide +kernel
  exact hall ⟨c.toNat, c.toNat_lt⟩

theorem mapDP_fits (h : mapDP dp = .ok vs) : ∀ v ∈ vs, v ≤ 31 := by
  induction dp generalizing vs with
  | nil =>
    cases h
    simp
  | cons c dp ih =>
    simp only [mapDP] at h
    split at h
    · cases h
    · split at h
      · cases h
      · split at h
        · rename_i rest hrest
          cases h
          intro v hv
          rcases List.mem_cons.mp hv with rfl | hv
          · exact charValue_fits c
          · exact ih hrest v hv
        · cases h

theorem bind_ok {x : Except Str α} {f : α → Except Str β} (h : x >>= f = .ok b) :
    ∃ a, x = .ok a ∧ f a = .ok b := by
  cases x with
  | error e => cases h
  | ok a => exact ⟨a, rfl, h⟩

/-- The data part of a text that is read is made of values of five bits. -/
theorem decode_fits (h : decode s = .ok r) : ∀ v ∈ r.dp, v ≤ 31 := by
  unfold decode at h
  obtain ⟨-, -, h⟩ := bind_ok h
  obtain ⟨-, -, h⟩ := bind_ok h
  obtain ⟨-, -, h⟩ := bind_ok h
  obtain ⟨-, -, h⟩ := bind_ok h
  obtain ⟨vs, hvs, h⟩ := bind_ok h
  have hstrip : ∀ v ∈ stripChecksum vs, v ≤ 31 := by
    intro v hv
    exact mapDP_fits hvs v (List.mem_of_mem_take hv)
  split at h
  · cases h
    exact hstrip
  · split at h <;> cases h
    · exact hstrip
    · simp

end Bech32

namespace SignatureTools

/-- What a decoder of keys returns for `s`, whatever its array held before, is nothing or
the digits of 32 bytes that the data part of `s` is the regrouping of. -/
structure SaysOnly (decoder : PublicKey → Except Str Str) (s : Str) : Prop where
  same : ∀ unwritten unwritten', decoder unwritten = decoder unwritten'
  spelled : ∀ unwritten h, decoder unwritten = .ok h → h ≠ [] →
    ∃ r, Bech32.decode s = .ok r ∧ ∃ key : PublicKey, h = key.toHex ∧
      r.dp = asChars (convertBits 8 5 key.bytes)

/-- A data part of 32 bytes: 52 values, and the last four bits are zero. -/
def HoldsKey (dp : Str) : Prop := dp.length = 52 ∧ ∀ v, dp.getLast? = some v → v.toNat % 16 = 0

instance (dp : Str) : Decidable (HoldsKey dp) :=
  decidable_of_iff (dp.length = 52 ∧ dp.getLast?.all (fun v => v.toNat % 16 = 0) = true) (by
    simp only [HoldsKey, Option.all_eq_true, decide_eq_true_eq])

def KeyText (s cat : Str) : Prop :=
  ∀ r, Bech32.decode s = .ok r → r.encoding ≠ .invalid → r.hrp = cat → HoldsKey r.dp

theorem digits_fits (h : ∀ v ∈ dp, v ≤ 31) : digits 5 dp = dp.map UInt8.toNat := by
  apply List.map_congr_left
  intro v hv
  have hle := UInt8.le_iff_toNat_le.mp (h v hv)
  have h31 : (31 : UInt8).toNat = 31 := rfl
  exact Nat.mod_eq_of_lt (by omega)

theorem asChars_toNat (h : ∀ d ∈ values ws, d < 2 ^ 8) :
    (asChars ws).map UInt8.toNat = values ws := by
  unfold asChars values
  rw [List.map_map]
  apply List.map_congr_left
  intro w hw
  have hlt : w.toNat < 2 ^ 8 := h _ (List.mem_map.mpr ⟨w, hw, rfl⟩)
  simpa using hlt

/-- The 32 bytes of a key make 52 values with four zeros at the end. -/
theorem key_values (key : PublicKey) :
    Padded 8 5 (key.bytes.map UInt8.toNat) ((asChars (convertBits 8 5 key.bytes)).map UInt8.toNat)
      4 ∧ (asChars (convertBits 8 5 key.bytes)).length = 52 := by
  obtain ⟨pad, hpad, h⟩ :=
    convertBits_padded (show 0 < 5 by decide) (show 5 < 8 by decide) (by decide) key.bytes
  rw [digits_bytes] at h
  have hbits := h.bits
  simp only [List.length_map, key.size] at hbits
  obtain rfl : pad = 4 := by omega
  rw [asChars_toNat (fun d hd => Nat.lt_trans (h.fits d hd) (by decide))]
  refine ⟨h, ?_⟩
  simp only [values, List.length_map] at hbits
  simp only [asChars, List.length_map]
  omega

/-- The last value is what a number leaves by its base. -/
theorem value_mod_last (ds : List Nat) (hd : ∀ d ∈ ds, d < b) (hl : ds.getLast? = some d) :
    value b ds % b = d := by
  obtain ⟨before, rfl⟩ := List.getLast?_eq_some_iff.mp hl
  rw [value_snoc, Nat.mul_add_mod_self_right, Nat.mod_eq_of_lt (hd d (by simp))]

theorem key_holds (key : PublicKey) : HoldsKey (asChars (convertBits 8 5 key.bytes)) := by
  obtain ⟨h, hlen⟩ := key_values key
  refine ⟨hlen, ?_⟩
  intro v hv
  have hlast : ((asChars (convertBits 8 5 key.bytes)).map UInt8.toNat).getLast? = some v.toNat := by
    rw [List.getLast?_map, hv]
    rfl
  have hmod := value_mod_last _ h.fits hlast
  rw [h.same] at hmod
  omega

/-- 52 values whose last four bits are zero fill the array, and its bytes spell them. -/
theorem fill_holds (hfit : ∀ v ∈ dp, v ≤ 31) (h : HoldsKey dp) :
    ∃ key : PublicKey, (∀ unwritten, fill unwritten (asChars (convertBits 5 8 dp)) = key) ∧
      dp = asChars (convertBits 8 5 key.bytes) := by
  obtain ⟨hlen, hlast⟩ := h
  obtain ⟨left, hleft, hmade⟩ :=
    convertBits_regrouped (show 0 < 5 by decide) (show 5 ≤ 8 by decide) (by decide) dp
  rw [digits_fits hfit] at hmade
  have hbits := hmade.bits
  rw [List.length_map, hlen] at hbits
  obtain rfl : left = 4 := by omega
  have hsize : (asChars (convertBits 5 8 dp)).length = 32 := by
    simp only [values, List.length_map] at hbits
    simp only [asChars, List.length_map]
    omega
  let key : PublicKey := ⟨asChars (convertBits 5 8 dp), hsize⟩
  refine ⟨key, fun unwritten => fill_bytes unwritten key, ?_⟩
  obtain ⟨hkey, hkeylen⟩ := key_values key
  have hbytes : key.bytes.map UInt8.toNat = values (convertBits 5 8 dp) := asChars_toNat hmade.fits
  have hdp : ∀ d ∈ dp.map UInt8.toNat, d < 2 ^ 5 := by
    intro d hd
    obtain ⟨v, hv, rfl⟩ := List.mem_map.mp hd
    exact Nat.lt_succ_of_le (UInt8.le_iff_toNat_le.mp (hfit v hv))
  -- the four bits that the bytes leave over are the zeros the padding puts back
  have hzero : value (2 ^ 5) (dp.map UInt8.toNat) % 2 ^ 4 = 0 := by
    obtain ⟨v, hv⟩ : ∃ v, dp.getLast? = some v := by
      cases hv : dp.getLast? with
      | none => simp [List.getLast?_eq_none_iff.mp hv] at hlen
      | some v => exact ⟨v, rfl⟩
    have hmod := value_mod_last _ hdp (d := v.toNat) (by rw [List.getLast?_map, hv]; rfl)
    have := hlast v hv
    omega
  have hvalue : value (2 ^ 5) (dp.map UInt8.toNat) =
      value (2 ^ 5) ((asChars (convertBits 8 5 key.bytes)).map UInt8.toNat) := by
    rw [hkey.same, hbytes, hmade.high]
    exact (Nat.div_mul_cancel (Nat.dvd_of_mod_eq_zero hzero)).symm
  have hsame := value_injective (by decide) (by simp [hlen, hkeylen]) hdp hkey.fits hvalue
  exact (List.map_inj_right (fun _ _ => UInt8.toNat_inj.mp)).mp hsame

theorem toHex_ne_nil (key : PublicKey) : toHex key.bytes ≠ [] := by
  obtain ⟨bytes, hsize⟩ := key
  cases bytes with
  | nil => cases hsize
  | cons c bytes => simp [toHex]

/-- The exits of `from_bech32`: with nothing, whatever its array holds, or with the array. -/
theorem fromBech32_cases (s cat : Str) :
    (∃ x, (∀ h, x = .ok h → h = []) ∧ ∀ unwritten, fromBech32 unwritten s cat = x) ∨
    ∃ r, Bech32.decode s = .ok r ∧ r.encoding ≠ .invalid ∧ r.hrp = cat ∧ ∀ unwritten,
      fromBech32 unwritten s cat =
        .ok (toHex (fill unwritten (asChars (convertBits 5 8 r.dp))).bytes) := by
  cases hr : Bech32.decode s with
  | error e => exact Or.inl ⟨.error e, by simp, by simp [fromBech32, hr, bind, Except.bind]⟩
  | ok r =>
    by_cases hvalid : r.encoding = .invalid
    · exact Or.inl ⟨.ok [], by simp,
        by simp [fromBech32, hr, hvalid, bind, Except.bind, pure, Except.pure]⟩
    by_cases hcat : r.hrp = cat
    · exact Or.inr ⟨r, rfl, hvalid, hcat,
        by simp [fromBech32, hr, hvalid, hcat, bind, Except.bind, pure, Except.pure]⟩
    · exact Or.inl ⟨.ok [], by simp,
        by simp [fromBech32, hr, hvalid, hcat, bind, Except.bind, pure, Except.pure]⟩

theorem fromBech32_saysOnly_iff (s cat : Str) :
    SaysOnly (fun unwritten => fromBech32 unwritten s cat) s ↔ KeyText s cat := by
  constructor
  · intro h r hr hvalid hcat
    rcases fromBech32_cases s cat with ⟨x, hnone, hx⟩ | ⟨r', hr', -, -, hall⟩
    · have hfrom : fromBech32 (Binary.replicate 32 0) s cat =
          .ok (toHex (fill (Binary.replicate 32 0) (asChars (convertBits 5 8 r.dp))).bytes) := by
        simp [fromBech32, hr, hvalid, hcat, bind, Except.bind, pure, Except.pure]
      exact absurd (hnone _ ((hx _).symm.trans hfrom)) (toHex_ne_nil _)
    · cases hr.symm.trans hr'
      obtain ⟨r', hr', key, -, hdp⟩ :=
        h.spelled (Binary.replicate 32 0) _ (hall _) (toHex_ne_nil _)
      cases hr.symm.trans hr'
      rw [hdp]
      exact key_holds key
  · intro h
    rcases fromBech32_cases s cat with ⟨x, hnone, hx⟩ | ⟨r, hr, hvalid, hcat, hall⟩
    · constructor
      · intro unwritten unwritten'
        exact (hx unwritten).trans (hx unwritten').symm
      · intro unwritten hex hhex hne
        exact absurd (hnone hex ((hx unwritten).symm.trans hhex)) hne
    · obtain ⟨key, hfill, hdp⟩ := fill_holds (Bech32.decode_fits hr) (h r hr hvalid hcat)
      have hkey (unwritten : PublicKey) : fromBech32 unwritten s cat = .ok key.toHex := by
        rw [hall, hfill, toHex_eq]
        rfl
      constructor
      · intro unwritten unwritten'
        exact (hkey unwritten).trans (hkey unwritten').symm
      · intro unwritten hex hhex hne
        cases (hkey unwritten).symm.trans hhex
        exact ⟨r, hr, key, rfl, hdp⟩

/-- A key is read from nothing but its text exactly when the data part holds one. -/
theorem decoded_keys_exact (s : Str) :
    (∀ cat, SaysOnly (fun unwritten => fromBech32 unwritten s cat) s ↔ KeyText s cat) ∧
    (SaysOnly (fun unwritten => fromNpub unwritten s) s ↔ KeyText s (str "npub")) :=
  ⟨fromBech32_saysOnly_iff s, fromBech32_saysOnly_iff s (str "npub")⟩

def emptyNpub : Str := str "npub16x6elj"

theorem emptyNpub_leaks : ¬ SaysOnly (fun unwritten => fromNpub unwritten emptyNpub) emptyNpub := by
  intro h
  have hsame := h.same (Binary.replicate 32 0) (Binary.replicate 32 1)
  revert hsame
  decide +kernel

end SignatureTools

end NostrServer
