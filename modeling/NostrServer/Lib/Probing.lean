namespace Probing

/-- `while (!stop(idx)) idx = (idx+1) % size`, for at most `fuel` positions. -/
def probe (stop : Nat → Bool) (size : Nat) : Nat → Nat → Option Nat
  | 0, _ => none
  | fuel + 1, idx => if stop idx then some idx else probe stop size fuel ((idx + 1) % size)

/-- Slot `j` comes `d` positions after `home`, and no earlier position stops the walk. -/
def At (stop : Nat → Bool) (size home d j : Nat) : Prop :=
  j = (home + d) % size ∧ ∀ e < d, stop ((home + e) % size) = false

theorem At.step (h : At stop size ((home + 1) % size) d j)
    (hs : stop (home % size) = false) : At stop size home (d + 1) j := by
  refine ⟨?_, ?_⟩
  · rw [h.1, Nat.mod_add_mod, Nat.add_assoc, Nat.add_comm 1 d]
  · intro e he
    cases e with
    | zero => exact hs
    | succ e =>
      have := h.2 e (by omega)
      rwa [Nat.mod_add_mod, Nat.add_assoc, Nat.add_comm 1 e] at this

/-- A walk ends at the first position that stops it. -/
theorem probe_some (hi : idx < size) (h : probe stop size fuel idx = some j) :
    stop j = true ∧ ∃ d < fuel, At stop size idx d j := by
  induction fuel generalizing idx with
  | zero => cases h
  | succ fuel ih =>
    have hm := Nat.mod_eq_of_lt hi
    unfold probe at h
    split at h
    · rename_i hs
      cases h
      exact ⟨hs, 0, Nat.succ_pos fuel, hm.symm, by simp⟩
    · rename_i hs
      obtain ⟨hj, d, hd, ha⟩ := ih (Nat.mod_lt _ (by omega)) h
      exact ⟨hj, d + 1, Nat.succ_lt_succ hd, ha.step (by rw [hm]; simpa using hs)⟩

/-- A walk that has a stopping position within its fuel ends no later than there. -/
theorem probe_ends (hi : idx < size) (hd : d < fuel) (hs : stop ((idx + d) % size) = true) :
    ∃ j e, probe stop size fuel idx = some j ∧ e ≤ d ∧ At stop size idx e j ∧ stop j = true := by
  induction fuel generalizing idx d with
  | zero => omega
  | succ fuel ih =>
    have hm := Nat.mod_eq_of_lt hi
    by_cases h0 : stop idx = true
    · exact ⟨idx, 0, by simp [probe, h0], Nat.zero_le d, ⟨hm.symm, by simp⟩, h0⟩
    · cases d with
      | zero => rw [Nat.add_zero, hm] at hs; contradiction
      | succ d =>
        have hs' : stop (((idx + 1) % size + d) % size) = true := by
          rwa [Nat.mod_add_mod, Nat.add_assoc, Nat.add_comm 1 d]
        obtain ⟨j, e, hp, he, ha, hj⟩ := ih (Nat.mod_lt _ (by omega)) (by omega) hs'
        refine ⟨j, e + 1, by simpa [probe, h0] using hp, by omega, ha.step ?_, hj⟩
        rw [hm]
        simpa using h0

/-- From any start every position comes up within `size` steps. -/
theorem distance {idx size j : Nat} (hi : idx < size) (hj : j < size) :
    ∃ d < size, (idx + d) % size = j := by
  by_cases h : idx ≤ j
  · exact ⟨j - idx, by omega, by rw [Nat.mod_eq_of_lt (by omega)]; omega⟩
  · refine ⟨size - idx + j, by omega, ?_⟩
    rw [show idx + (size - idx + j) = j + size by omega, Nat.add_mod_right, Nat.mod_eq_of_lt hj]

/-- One slot that stops the walk is enough for it to end. -/
theorem probe_total (hi : idx < size) (hj : j < size) (hs : stop j = true) :
    ∃ k d, probe stop size size idx = some k ∧ d < size ∧ At stop size idx d k ∧ stop k = true := by
  obtain ⟨d, hd, he⟩ := distance hi hj
  obtain ⟨k, e, hp, hle, ha, hk⟩ := @probe_ends idx size d size stop hi hd (he ▸ hs)
  exact ⟨k, e, hp, by omega, ha, hk⟩

variable {α : Type} [DecidableEq α] {zero : α}

/-- The walk of an insertion: it ends at the first slot that holds `zero`. -/
def free (zero : α) (table : List α) (j : Nat) : Bool := table.getD j zero == zero

/-- A table with fewer entries than slots has a free slot. -/
theorem exists_free (table : List α) (h : table.countP (fun v => v ≠ zero) < table.length) :
    ∃ j < table.length, free zero table j = true := by
  have hn : ¬ ∀ v ∈ table, decide (v ≠ zero) = true := by
    intro hall
    rw [List.countP_eq_length.mpr hall] at h
    exact Nat.lt_irrefl _ h
  simp only [Classical.not_forall] at hn
  obtain ⟨v, hv, hz⟩ := hn
  obtain ⟨j, hj, he⟩ := List.mem_iff_getElem.mp hv
  refine ⟨j, hj, ?_⟩
  simp only [free, List.getD_eq_getElem?_getD, List.getElem?_eq_getElem hj, Option.getD_some, he]
  simpa using hz

/-- Filling a free slot adds one entry at most. -/
theorem count_fill (table : List α) (hj : j < table.length) (v : α) :
    (table.set j v).countP (fun w => w ≠ zero) ≤ table.countP (fun w => w ≠ zero) + 1 := by
  rw [List.countP_set hj]
  split <;> split <;> omega

end Probing
