import Mathlib.Data.List.Nodup
import Mathlib.Data.List.Count
import Mathlib.Data.Nat.Find
import NostrServer.Lib.Probing

namespace Probing

/-- How far `s` comes after `home`, going round. -/
def ahead (size home s : Nat) : Nat := (s + (size - home)) % size

section
variable {size home s e x y j k : Nat}

theorem ahead_eq (hh : home < size) (hs : s < size) :
    ahead size home s = if home ≤ s then s - home else s + size - home := by
  unfold ahead
  split
  · rw [show s + (size - home) = (s - home) + size by omega, Nat.add_mod_right,
      Nat.mod_eq_of_lt (by omega)]
  · rw [Nat.mod_eq_of_lt (by omega)]
    omega

theorem round_eq (hh : home < size) (he : e < size) :
    (home + e) % size = if home + e < size then home + e else home + e - size := by
  split
  · rename_i h
    exact Nat.mod_eq_of_lt h
  · rw [Nat.mod_eq_sub_mod (by omega), Nat.mod_eq_of_lt (by omega)]

theorem ahead_lt (hh : home < size) : ahead size home s < size := Nat.mod_lt _ (by omega)

theorem round_ahead (hh : home < size) (hs : s < size) : (home + ahead size home s) % size = s := by
  have h := ahead_eq hh hs
  rw [round_eq hh (ahead_lt hh)]
  split at h <;> split <;> omega

theorem ahead_round (hh : home < size) (he : e < size) :
    ahead size home ((home + e) % size) = e := by
  rw [ahead_eq hh (Nat.mod_lt _ (by omega)), round_eq hh he]
  split <;> split <;> omega

/-- On the way from `home` to `s`, what is left to go. -/
theorem ahead_between (hh : home < size) (hs : s < size) (he : e ≤ ahead size home s) :
    ahead size ((home + e) % size) s = ahead size home s - e := by
  have hlt := ahead_lt (s := s) hh
  have hr := round_eq hh (Nat.lt_of_le_of_lt he hlt)
  rw [ahead_eq (Nat.mod_lt _ (by omega)) hs]
  rw [ahead_eq hh hs] at he ⊢
  split at hr <;> split at he <;> split <;> omega

theorem ahead_inj (hx : x < size) (hy : y < size) (hs : s < size)
    (h : ahead size x s = ahead size y s) : x = y := by
  rw [ahead_eq hx hs, ahead_eq hy hs] at h
  split at h <;> split at h <;> omega

/-- The slot `k` places before `s`. -/
def behind (size s k : Nat) : Nat := (s + (size - k)) % size

theorem behind_lt (hs : s < size) : behind size s k < size := Nat.mod_lt _ (by omega)

theorem ahead_behind (hs : s < size) (hk : 0 < k) (hk' : k < size) :
    ahead size (behind size s k) s = k := by
  have hr := round_eq (e := size - k) hs (by omega)
  rw [ahead_eq (behind_lt hs) hs]
  unfold behind
  split at hr <;> split <;> omega

/-- Who has at least `k` slots to go comes by the slot `k` places before. -/
theorem passes_behind (hh : home < size) (hs : s < size) (hk : 0 < k)
    (hle : k ≤ ahead size home s) :
    (home + (ahead size home s - k)) % size = behind size s k := by
  have hlt := ahead_lt (s := s) hh
  refine ahead_inj (Nat.mod_lt _ (by omega)) (behind_lt hs) hs ?_
  rw [ahead_between hh hs (Nat.sub_le _ _), ahead_behind hs hk (by omega)]
  omega

theorem behind_inj (hs : s < size) (hj : 0 < j) (hj' : j < size) (hk : 0 < k) (hk' : k < size)
    (h : behind size s j = behind size s k) : j = k := by
  rw [← ahead_behind hs hj hj', h, ahead_behind hs hk hk']

theorem behind_nodup (hs : s < size) (hn : n < size) :
    ((List.range' 1 n).map (behind size s)).Nodup :=
  List.Nodup.map_on (fun j hj k hk he => by
    rw [List.mem_range'_1] at hj hk
    exact behind_inj hs (by omega) (by omega) (by omega) (by omega) he) List.nodup_range'

/-- The places behind a slot, up to the first free one. -/
theorem exists_free_behind (slots : List Nat) (hroom : slots.length + 1 < size) (hs : s < size) :
    ∃ k, 0 < k ∧ k < size ∧ behind size s k ∉ slots ∧
      ∀ j, 0 < j → j < k → behind size s j ∈ slots := by
  have hsome : ∃ k, 0 < k ∧ k < size ∧ behind size s k ∉ slots := by
    by_contra hnone
    have hall (k : Nat) (hk : 0 < k) (hk' : k < size) : behind size s k ∈ slots :=
      Classical.not_not.mp (fun hn => hnone ⟨k, hk, hk', hn⟩)
    have hnodup : ((List.range' 1 (size - 1)).map (behind size s)).Nodup :=
      behind_nodup hs (by omega)
    have hmany := (List.subperm_of_subset hnodup (fun x hx => by
      obtain ⟨k, hk, rfl⟩ := List.mem_map.mp hx
      rw [List.mem_range'_1] at hk
      exact hall k (by omega) (by omega))).length_le
    simp only [List.length_map, List.length_range'] at hmany
    omega
  classical
  refine ⟨Nat.find hsome, (Nat.find_spec hsome).1, (Nat.find_spec hsome).2.1,
    (Nat.find_spec hsome).2.2, fun j hj hlt => ?_⟩
  have hless := (Nat.find_spec hsome).2.1
  exact Classical.not_not.mp (fun hn => Nat.find_min hsome hlt ⟨hj, by omega, hn⟩)

end

/-- The homes of the arrivals and the slots they have taken: each the first slot from its
home that was free. -/
inductive Parked (size : Nat) : List (Nat × Nat) → Prop where
  | nil : Parked size []
  | snoc {cars : List (Nat × Nat)} {home slot : Nat} (before : Parked size cars)
    (hhome : home < size) (hslot : slot < size) (free : slot ∉ cars.map Prod.snd)
      (walked : ∀ e < ahead size home slot, (home + e) % size ∈ cars.map Prod.snd) :
      Parked size (cars ++ [(home, slot)])

/-- Some stretch of slots ending at `s` is home to as many as it has slots. -/
def Covered (size : Nat) (homes : List Nat) (s : Nat) : Prop :=
  ∃ len ≤ size, 0 < len ∧ len ≤ homes.countP (fun h => ahead size h s < len)

theorem Covered.append (h : Covered size homes s) (more : List Nat) :
    Covered size (homes ++ more) s := by
  obtain ⟨len, hle, hpos, hcount⟩ := h
  exact ⟨len, hle, hpos, by rw [List.countP_append]; omega⟩

namespace Parked

theorem slots_nodup (h : Parked size cars) : (cars.map Prod.snd).Nodup := by
  induction h with
  | nil => exact List.nodup_nil
  | snoc before hhome hslot free walked ih =>
    rw [List.map_append, List.map_cons, List.map_nil]
    exact List.nodup_append.mpr ⟨ih, List.nodup_singleton _, fun a ha b hb he => by
      rw [List.mem_singleton.mp hb] at he
      exact free (by rwa [he] at ha)⟩

/-- Every arrival has walked over taken slots. -/
theorem walk (h : Parked size cars) (hin : car ∈ cars) : car.1 < size ∧ car.2 < size ∧
    ∀ e < ahead size car.1 car.2, (car.1 + e) % size ∈ cars.map Prod.snd := by
  induction h with
  | nil => cases hin
  | snoc before hhome hslot free walked ih =>
    rw [List.map_append]
    rcases List.mem_append.mp hin with hin | hin
    · obtain ⟨hh, hs, hwalk⟩ := ih hin
      exact ⟨hh, hs, fun e he => List.mem_append_left _ (hwalk e he)⟩
    · rw [List.mem_singleton.mp hin]
      exact ⟨hhome, hslot, fun e he => List.mem_append_left _ (walked e he)⟩

/-- Who comes from before a free slot parks before it. -/
theorem parks_before (h : Parked size cars) (hin : car ∈ cars) (hs : s < size)
    (hfree : s ∉ cars.map Prod.snd) :
    ahead size car.1 car.2 < ahead size car.1 s ∧
    ahead size car.2 s = ahead size car.1 s - ahead size car.1 car.2 := by
  obtain ⟨hh, hp, hwalk⟩ := h.walk hin
  have hlt : ahead size car.1 car.2 < ahead size car.1 s := by
    rcases Nat.lt_trichotomy (ahead size car.1 car.2) (ahead size car.1 s) with hlt | he | hgt
    · exact hlt
    · have hsame : car.2 = s := by rw [← round_ahead hh hp, he, round_ahead hh hs]
      exact absurd (List.mem_map.mpr ⟨car, hin, hsame⟩) hfree
    · have hpassed := hwalk _ hgt
      rw [round_ahead hh hs] at hpassed
      exact absurd hpassed hfree
  refine ⟨hlt, ?_⟩
  have hleft := ahead_between hh hs (Nat.le_of_lt hlt)
  rwa [round_ahead hh hp] at hleft

/-- No stretch that ends at a free slot is home to as many as it has slots. -/
theorem not_covered (h : Parked size cars) (hs : s < size) (hfree : s ∉ cars.map Prod.snd) :
    ¬ Covered size (cars.map Prod.fst) s := by
  intro ⟨len, hle, hpos, hcount⟩
  rw [List.countP_map, List.countP_eq_length_filter] at hcount
  have hnear : ∀ car ∈ cars.filter (fun car => decide (ahead size car.1 s < len)),
      ahead size car.2 s ∈ List.range' 1 (len - 1) := by
    intro car hcar
    obtain ⟨hin, hlt⟩ := List.mem_filter.mp hcar
    have hbefore := h.parks_before hin hs hfree
    have hlt := of_decide_eq_true hlt
    exact List.mem_range'_1.mpr (by omega)
  have hnodup : ((cars.filter (fun car => decide (ahead size car.1 s < len))).map
      (fun car => ahead size car.2 s)).Nodup := by
    have hslots := (h.slots_nodup.sublist (List.filter_sublist.map Prod.snd) :
      ((cars.filter (fun car => decide (ahead size car.1 s < len))).map Prod.snd).Nodup)
    have hmap := List.Nodup.map_on (f := fun p => ahead size p s) (fun p hp q hq he => by
      have hin (r : Nat) (hr : r ∈ (cars.filter
          (fun car => decide (ahead size car.1 s < len))).map Prod.snd) : r < size := by
        obtain ⟨car, hcar, rfl⟩ := List.mem_map.mp hr
        exact (h.walk (List.mem_filter.mp hcar).1).2.1
      exact ahead_inj (hin p hp) (hin q hq) hs he) hslots
    rwa [List.map_map] at hmap
  have hfew := (List.subperm_of_subset hnodup (fun d hd => by
    obtain ⟨car, hcar, rfl⟩ := List.mem_map.mp hd
    exact hnear car hcar)).length_le
  rw [List.length_map, List.length_range'] at hfew
  have hsame : (cars.filter ((fun h => decide (ahead size h s < len)) ∘ Prod.fst)).length =
      (cars.filter (fun car => decide (ahead size car.1 s < len))).length := rfl
  omega

/-- The slot that an arrival takes ends a stretch that is home to enough of them. -/
theorem covered_snoc (h : Parked size cars) (hroom : cars.length + 1 < size) (hhome : home < size)
    (hs : s < size) (hfree : s ∉ cars.map Prod.snd)
    (hwalked : ∀ e < ahead size home s, (home + e) % size ∈ cars.map Prod.snd) :
    Covered size (cars.map Prod.fst ++ [home]) s := by
  obtain ⟨k, hk, hk', hgap, htaken⟩ :=
    exists_free_behind (cars.map Prod.snd) (by simpa using hroom) hs
  have hnew : ahead size home s < k := by
    by_contra hfar
    have hpassed := hwalked (ahead size home s - k) (by omega)
    rw [passes_behind hhome hs hk (by omega)] at hpassed
    exact hgap hpassed
  have hold : k - 1 ≤ (cars.filter (fun car => decide (ahead size car.1 s < k))).length := by
    have hsub : (List.range' 1 (k - 1)).map (behind size s) ⊆
        (cars.filter (fun car => decide (ahead size car.1 s < k))).map Prod.snd := by
      intro x hx
      obtain ⟨j, hj, rfl⟩ := List.mem_map.mp hx
      rw [List.mem_range'_1] at hj
      obtain ⟨car, hin, hslot⟩ := List.mem_map.mp (htaken j (by omega) (by omega))
      refine List.mem_map.mpr ⟨car, List.mem_filter.mpr ⟨hin, decide_eq_true ?_⟩, hslot⟩
      have hbefore := h.parks_before hin hs hfree
      rw [hslot, ahead_behind hs (by omega) (by omega)] at hbefore
      by_contra hfar
      obtain ⟨hh, -, hwalk⟩ := h.walk hin
      rw [hslot] at hwalk
      have hpassed := hwalk (ahead size car.1 s - k) (by omega)
      rw [passes_behind hh hs hk (by omega)] at hpassed
      exact hgap hpassed
    simpa using (List.subperm_of_subset (behind_nodup hs (by omega)) hsub).length_le
  refine ⟨k, by omega, hk, ?_⟩
  have hcount : (cars.map Prod.fst).countP (fun h => decide (ahead size h s < k)) =
      (cars.filter (fun car => decide (ahead size car.1 s < k))).length := by
    rw [List.countP_map, List.countP_eq_length_filter]
    rfl
  rw [List.countP_append, hcount, List.countP_singleton, if_pos (decide_eq_true hnew)]
  omega

/-- A slot is taken exactly when it is covered. -/
theorem mem_iff_covered (h : Parked size cars) (hroom : cars.length < size) (hs : s < size) :
    s ∈ cars.map Prod.snd ↔ Covered size (cars.map Prod.fst) s := by
  refine ⟨fun hin => ?_, fun hc => Classical.not_not.mp (fun hfree => h.not_covered hs hfree hc)⟩
  induction h with
  | nil => cases hin
  | snoc before hhome hslot free walked ih =>
    rw [List.length_append, List.length_singleton] at hroom
    rw [List.map_append] at hin ⊢
    rcases List.mem_append.mp hin with hin | hin
    · exact (ih (by omega) hin).append _
    · rw [List.mem_singleton.mp hin] at hs ⊢
      exact before.covered_snoc hroom hhome hslot free walked

end Parked

end Probing
