import NostrServer.Lib.Parking
import NostrServer.TagTable
import NostrServer.Reference

namespace NostrServer
open Probing

/-- The tags that take a slot: those with names of one character, but for every 65536th
tag, whose number is 0 in 16 bits. -/
def takesSlot (i : Nat) (t : Tag) : Bool := t.tag.length = 1 && (i + 1) % 65536 ≠ 0

def homeSlot (hasher : Str → UInt64) (size : Nat) (t : UInt8) (c : Str) : Nat :=
  (tagHash hasher t c).toNat % size

def Tag.home (hasher : Str → UInt64) (size : Nat) (t : Tag) : Nat :=
  homeSlot hasher size (t.tag.getD 0 0) t.content

def takenHomes (hasher : Str → UInt64) (size : Nat) (tags : List Tag) : List Nat :=
  (tags.zipIdx.filter (fun p => takesSlot p.2 p.1)).map (fun p => p.1.home hasher size)

/-- The slot of the tag at `i`: the first one from its home that the tags before it have
left free. -/
structure Lands (hasher : Str → UInt64) (size : Nat) (tags : List Tag) (i s : Nat) : Prop where
  slot : s < size
  tag : ∃ t, tags[i]? = some t ∧ takesSlot i t = true ∧
    ∀ e < ahead size (t.home hasher size) s,
      Covered size (takenHomes hasher size (tags.take i)) ((t.home hasher size + e) % size)
  free : ¬ Covered size (takenHomes hasher size (tags.take i)) s

section
variable {hasher : Str → UInt64} {size : Nat}

theorem takenHomes_snoc (pre : List Tag) (t : Tag) : takenHomes hasher size (pre ++ [t]) =
    takenHomes hasher size pre ++
      (if takesSlot pre.length t then [t.home hasher size] else []) := by
  simp only [takenHomes, List.zipIdx_append, List.filter_append, List.map_append,
    List.zipIdx_singleton, List.filter_singleton, Nat.zero_add]
  split <;> simp_all

theorem takenHomes_take (hasher : Str → UInt64) (size : Nat) (tags : List Tag) (h : i ≤ k) :
    ∃ more, takenHomes hasher size (tags.take k) =
      takenHomes hasher size (tags.take i) ++ more := by
  obtain ⟨d, rfl⟩ := Nat.exists_eq_add_of_le h
  rw [List.take_add]
  simp only [takenHomes, List.zipIdx_append, List.filter_append, List.map_append]
  exact ⟨_, rfl⟩

/-- What is covered stays covered. -/
theorem covered_later (tags : List Tag) (h : i ≤ k)
    (hc : Covered size (takenHomes hasher size (tags.take i)) s) :
    Covered size (takenHomes hasher size (tags.take k)) s := by
  obtain ⟨more, he⟩ := takenHomes_take hasher size tags h
  exact he ▸ hc.append more

theorem ofNat_eq_zero (i : Nat) : UInt16.ofNat (i + 1) = 0 ↔ (i + 1) % 65536 = 0 := by
  rw [← UInt16.toNat_inj]
  simp

/-- Setting a free slot changes no other one. -/
theorem free_set {map : List UInt16} (hk : k < map.length) (v : UInt16) (j : Nat) :
    free 0 (map.set k v) j = if k = j then v == 0 else free 0 map j := by
  unfold free
  by_cases h : k = j
  · subst h
    simp [List.getD_eq_getElem?_getD, hk]
  · simp [List.getD_eq_getElem?_getD, List.getElem?_set_ne h, h]

/-- One turn of `build_hash_map`: a tag with a name of one character fills the first free
slot from its home. -/
theorem tableOf_step (hasher : Str → UInt64) (size : Nat) (pre : List Tag) (t : Tag)
    (hs : pre.length < size) :
    (t.tag.length ≠ 1 ∧ tableOf hasher size (pre ++ [t]) = tableOf hasher size pre) ∨
    (t.tag.length = 1 ∧ ∃ k < size, free 0 (tableOf hasher size pre) k = true ∧
      (∀ e < ahead size (t.home hasher size) k,
        free 0 (tableOf hasher size pre) ((t.home hasher size + e) % size) = false) ∧
      tableOf hasher size (pre ++ [t]) =
        (tableOf hasher size pre).set k (UInt16.ofNat (pre.length + 1))) := by
  obtain ⟨hl, hc⟩ := tableOf_room hasher size pre hs
  rw [tableOf_snoc]
  rcases buildStep_cases hasher (tableOf hasher size pre) pre.length t (by omega) with
    ⟨hname, he⟩ | ⟨c, k, ht, hp, hk, hf, he⟩
  · exact Or.inl ⟨hname, he⟩
  · have hhome : (tagHash hasher c t.content).toNat % (tableOf hasher size pre).length =
        t.home hasher size := by
      rw [hl, Tag.home, homeSlot, ht]
      rfl
    rw [hhome, hl] at hp
    have hhlt : t.home hasher size < size := Nat.mod_lt _ (by omega)
    obtain ⟨-, d, hd, hat, hbefore⟩ := probe_some hhlt hp
    refine Or.inr ⟨by simp [ht], k, hl ▸ hk, hf, ?_, he⟩
    rw [hat, ahead_round hhlt hd]
    exact hbefore

/-- The taken slots are those of arrivals that park in order. -/
theorem tableOf_parked (hasher : Str → UInt64) (pre : List Tag) (hs : pre.length < size) :
    ∃ cars, Parked size cars ∧ cars.map Prod.fst = takenHomes hasher size pre ∧
      cars.length ≤ pre.length ∧
      ∀ j, free 0 (tableOf hasher size pre) j = false ↔ j ∈ cars.map Prod.snd := by
  induction pre using List.reverseRecOn with
  | nil =>
    refine ⟨[], .nil, rfl, Nat.le_refl 0, fun j => ?_⟩
    simp only [tableOf, List.zipIdx_nil, List.foldl_nil, List.map_nil, List.not_mem_nil,
      iff_false, free]
    by_cases hj : j < size <;> simp [List.getD_eq_getElem?_getD, hj]
  | append_singleton pre t ih =>
    rw [List.length_append, List.length_singleton] at hs
    obtain ⟨cars, hparked, hhomes, hfew, htaken⟩ := ih (by omega)
    have hl := (tableOf_room hasher size pre (by omega)).1
    rw [takenHomes_snoc]
    rcases tableOf_step hasher size pre t (by omega) with
      ⟨hname, he⟩ | ⟨hname, k, hk, hf, hbefore, he⟩
    · have hno : takesSlot pre.length t = false := by simp [takesSlot, hname]
      rw [he, hno]
      exact ⟨cars, hparked, by simpa using hhomes, by simp; omega, htaken⟩
    · have hin : k < (tableOf hasher size pre).length := Nat.lt_of_lt_of_eq hk hl.symm
      rw [he]
      by_cases hzero : (pre.length + 1) % 65536 = 0
      · have hno : takesSlot pre.length t = false := by simp [takesSlot, hzero]
        rw [hno]
        refine ⟨cars, hparked, by simpa using hhomes, by simp; omega, fun j => ?_⟩
        rw [free_set hin, (ofNat_eq_zero _).mpr hzero, ← htaken j]
        split
        · rename_i hkj
          simp [← hkj, hf]
        · rfl
      · have htakes : takesSlot pre.length t = true := by simp [takesSlot, hzero, hname]
        have hhlt : t.home hasher size < size := Nat.mod_lt _ (by omega)
        rw [htakes]
        refine ⟨cars ++ [(t.home hasher size, k)], hparked.snoc hhlt hk ?_ ?_,
          ?_, by simp; omega, fun j => ?_⟩
        · rw [← htaken k, hf]
          simp
        · exact fun e hlt => (htaken _).mp (hbefore e hlt)
        · simp [hhomes]
        · rw [free_set hin, List.map_append, List.mem_append, ← htaken j]
          have hne : (UInt16.ofNat (pre.length + 1) == 0) = false :=
            beq_eq_false_iff_ne.mpr (fun h => hzero ((ofNat_eq_zero _).mp h))
          split
          · rename_i hkj
            rw [hne]
            simp [hkj]
          · rename_i hkj
            simp [Ne.symm hkj]

/-- A slot is taken exactly when it is covered. -/
theorem taken_iff_covered (pre : List Tag) (hs : pre.length < size) (hj : j < size) :
    free 0 (tableOf hasher size pre) j = false ↔ Covered size (takenHomes hasher size pre) j := by
  obtain ⟨cars, hparked, hhomes, hfew, htaken⟩ := tableOf_parked hasher pre hs
  rw [htaken j, ← hhomes]
  exact hparked.mem_iff_covered (by omega) hj

theorem Lands.append {pre : List Tag} (h : Lands hasher size pre i s) (more : List Tag) :
    Lands hasher size (pre ++ more) i s := by
  obtain ⟨t, hget, htakes, hwalk⟩ := h.tag
  have hlt := (List.getElem?_eq_some_iff.mp hget).1
  have htake : (pre ++ more).take i = pre.take i := by
    rw [List.take_append_of_le_length (Nat.le_of_lt hlt)]
  refine ⟨h.slot, ⟨t, ?_, htakes, ?_⟩, ?_⟩
  · rw [List.getElem?_append_left hlt, hget]
  · rw [htake]
    exact hwalk
  · rw [htake]
    exact h.free

/-- A taken slot holds the number of the tag that has landed there. -/
theorem tableOf_entry (pre : List Tag) (hs : pre.length < size) (hj : j < size)
    (htaken : free 0 (tableOf hasher size pre) j = false) :
    ∃ i, Lands hasher size pre i j ∧ (tableOf hasher size pre).getD j 0 = UInt16.ofNat (i + 1) := by
  induction pre using List.reverseRecOn with
  | nil => simp [tableOf, free, List.getD_eq_getElem?_getD, hj] at htaken
  | append_singleton pre t ih =>
    rw [List.length_append, List.length_singleton] at hs
    have hl := (tableOf_room hasher size pre (by omega)).1
    rcases tableOf_step hasher size pre t (by omega) with ⟨_, he⟩ | ⟨hname, k, hk, hf, hbefore, he⟩
    · rw [he] at htaken ⊢
      obtain ⟨i, hlands, hv⟩ := ih (by omega) htaken
      exact ⟨i, hlands.append _, hv⟩
    · have hin : k < (tableOf hasher size pre).length := Nat.lt_of_lt_of_eq hk hl.symm
      rw [he] at htaken ⊢
      rw [free_set hin] at htaken
      split at htaken
      · rename_i hkj
        subst hkj
        have hzero : ¬ (pre.length + 1) % 65536 = 0 := fun h => by
          rw [(ofNat_eq_zero _).mpr h] at htaken
          exact absurd htaken (by decide)
        have htake : (pre ++ [t]).take pre.length = pre := List.take_left
        refine ⟨pre.length, ⟨hj, ⟨t, by simp, by simp [takesSlot, hzero, hname], ?_⟩, ?_⟩, ?_⟩
        · rw [htake]
          exact fun e hlt => (taken_iff_covered pre (by omega) (Nat.mod_lt _ (by omega))).mp
            (hbefore e hlt)
        · rw [htake, ← taken_iff_covered pre (by omega) hj, hf]
          simp
        · simp [List.getD_eq_getElem?_getD, hl, hk]
      · rename_i hkj
        obtain ⟨i, hlands, hv⟩ := ih (by omega) htaken
        refine ⟨i, hlands.append _, ?_⟩
        simpa [List.getD_eq_getElem?_getD, List.getElem?_set_ne hkj] using hv

/-- The slot of a tag is covered once it has landed. -/
theorem Lands.covered {tags : List Tag} (hs : tags.length < size) (h : Lands hasher size tags i s) :
    Covered size (takenHomes hasher size (tags.take (i + 1))) s := by
  obtain ⟨t, hget, htakes, hwalk⟩ := h.tag
  have hlt := (List.getElem?_eq_some_iff.mp hget).1
  have hlen : (tags.take i).length = i := by rw [List.length_take]; omega
  obtain ⟨cars, hparked, hhomes, hfew, htaken⟩ :=
    tableOf_parked hasher (tags.take i) (show (tags.take i).length < size by omega)
  have hin (x : Nat) (hx : x < size) :
      x ∈ cars.map Prod.snd ↔ Covered size (takenHomes hasher size (tags.take i)) x := by
    rw [← htaken x, taken_iff_covered _ (by omega) hx]
  have hnext : tags.take (i + 1) = tags.take i ++ [t] := by rw [List.take_add_one, hget]; rfl
  rw [hnext, takenHomes_snoc, hlen, htakes, if_pos rfl, ← hhomes]
  have hhlt : t.home hasher size < size := Nat.mod_lt _ (by omega)
  apply hparked.covered_snoc (by omega) hhlt h.slot (fun hmem => h.free ((hin s h.slot).mp hmem))
  intro e he
  exact (hin _ (Nat.mod_lt _ (by omega))).mpr (hwalk e he)

/-- No two tags land in one slot. -/
theorem Lands.unique {tags : List Tag} (hs : tags.length < size) (h : Lands hasher size tags i s)
    (h' : Lands hasher size tags k s) : i = k := by
  rcases Nat.lt_trichotomy i k with hlt | rfl | hlt
  · exact absurd (covered_later tags hlt (h.covered hs)) h'.free
  · rfl
  · exact absurd (covered_later tags hlt (h'.covered hs)) h.free

/-- Every tag that takes a slot lands in one. -/
theorem exists_lands (hasher : Str → UInt64) {tags : List Tag} (hs : tags.length < size)
    (hget : tags[i]? = some t) (htakes : takesSlot i t = true) :
    ∃ s, Lands hasher size tags i s := by
  have hlt := (List.getElem?_eq_some_iff.mp hget).1
  have hlen : (tags.take i).length = i := by rw [List.length_take]; omega
  rcases tableOf_step hasher size (tags.take i) t (by omega) with
    ⟨hname, -⟩ | ⟨-, s, hslot, hfree, hbefore, -⟩
  · simp [takesSlot, hname] at htakes
  · refine ⟨s, hslot, ⟨t, hget, htakes, fun e he => ?_⟩, ?_⟩
    · exact (taken_iff_covered _ (by omega) (Nat.mod_lt _ (by omega))).mp (hbefore e he)
    · rw [← taken_iff_covered _ (by omega) hslot, hfree]
      simp

theorem Lands.entry {tags : List Tag} (hs : tags.length < size) (h : Lands hasher size tags i s) :
    Probing.free 0 (tableOf hasher size tags) s = false ∧ (tableOf hasher size tags).getD s 0 =
      UInt16.ofNat (i + 1) := by
  have hlt : i < tags.length := by
    obtain ⟨t, hget, -⟩ := h.tag
    exact (List.getElem?_eq_some_iff.mp hget).1
  have hcovered := covered_later tags hlt (h.covered hs)
  rw [List.take_length] at hcovered
  have htaken := (taken_iff_covered tags hs h.slot).mpr hcovered
  obtain ⟨k, hk, hv⟩ := tableOf_entry tags hs h.slot htaken
  exact ⟨htaken, by rw [hv, hk.unique hs h]⟩

/-- The way to the slot a tag has landed in is covered, the slot included. -/
theorem Lands.reached {tags : List Tag} (hs : tags.length < size) (h : Lands hasher size tags i s)
    (hget : tags[i]? = some t) :
    ∀ e ≤ ahead size (t.home hasher size) s,
      Covered size (takenHomes hasher size tags) ((t.home hasher size + e) % size) := by
  intro e he
  obtain ⟨t', hget', -, hwalk⟩ := h.tag
  cases hget.symm.trans hget'
  have hlt := (List.getElem?_eq_some_iff.mp hget).1
  have hwhole (x : Nat) (k : Nat) (hk : k ≤ tags.length)
      (hc : Covered size (takenHomes hasher size (tags.take k)) x) :
      Covered size (takenHomes hasher size tags) x := by
    have hlater := covered_later tags hk hc
    rwa [List.take_length] at hlater
  rcases Nat.lt_or_eq_of_le he with he | rfl
  · exact hwhole _ i (Nat.le_of_lt hlt) (hwalk e he)
  · have hhlt : t.home hasher size < size := Nat.mod_lt _ (by omega)
    rw [round_ahead hhlt h.slot]
    exact hwhole _ (i + 1) hlt (h.covered hs)

end

def Event.built (hasher : Str → UInt64) (ev : Event) : Event :=
  { ev with tagHashMap := buildHashMap hasher ev.tags }

def Event.slots (ev : Event) : Nat := ev.tags.length * 2 + 1

theorem built_map (hasher : Str → UInt64) (ev : Event) :
    (ev.built hasher).tagHashMap = tableOf hasher ev.slots ev.tags := rfl

theorem built_length (hasher : Str → UInt64) (ev : Event) :
    (ev.built hasher).tagHashMap.length = ev.slots :=
  (tableOf_room hasher ev.slots ev.tags (by unfold Event.slots; omega)).1

theorem slots_lt (ev : Event) : ev.tags.length < ev.slots := by unfold Event.slots; omega

theorem homeSlot_lt (hasher : Str → UInt64) (ev : Event) (t : UInt8) (c : Str) :
    homeSlot hasher ev.slots t c < ev.slots :=
  Nat.mod_lt _ (Nat.lt_of_le_of_lt (Nat.zero_le _) (slots_lt ev))

/-- A search ends: at a slot that answers, or at a free one. -/
theorem search_ends (hasher : Str → UInt64) (ev : Event) (t : UInt8) (c : Str) :
    ∃ s < ev.slots, probe (fun j => free 0 (ev.built hasher).tagHashMap j ||
      (ev.built hasher).hitAt t c j)
        (ev.built hasher).tagHashMap.length (ev.built hasher).tagHashMap.length
        ((tagHash hasher t c).toNat % (ev.built hasher).tagHashMap.length) = some s ∧
      (free 0 (ev.built hasher).tagHashMap s || (ev.built hasher).hitAt t c s) = true ∧
      ∀ e < ahead ev.slots (homeSlot hasher ev.slots t c) s,
        free 0 (ev.built hasher).tagHashMap ((homeSlot hasher ev.slots t c + e) % ev.slots) =
          false ∧
        (ev.built hasher).hitAt t c ((homeSlot hasher ev.slots t c + e) % ev.slots) = false := by
  have hsize := slots_lt ev
  have hroom : (ev.built hasher).tagHashMap.countP (fun v => v ≠ 0) <
      (ev.built hasher).tagHashMap.length := by
    have hfew := (tableOf_room hasher ev.slots ev.tags hsize).2
    rw [built_length, built_map]
    omega
  obtain ⟨k, hk, hf⟩ := exists_free _ hroom
  have hhome := homeSlot_lt hasher ev t c
  rw [built_length] at hk ⊢
  obtain ⟨s, d, hp, hd, hat, hstop⟩ := @probe_total _ _ k
    (fun j => free 0 (ev.built hasher).tagHashMap j || (ev.built hasher).hitAt t c j) hhome hk
      (by simp [hf])
  refine ⟨s, hat.1 ▸ Nat.mod_lt _ (by omega), hp, hstop, fun e he => ?_⟩
  rw [hat.1, ahead_round hhome hd] at he
  simpa using hat.2 e he

/-- The tag that the 16-bit number of the tag at `i` stands for. -/
def Event.numbered (ev : Event) (i : Nat) : Option Tag := ev.tags[(i + 1) % 65536 - 1]?

/-- All slots on the way from the home of a name and a value to `s` are covered, and `s` is. -/
def Event.Reaches (hasher : Str → UInt64) (ev : Event) (t : UInt8) (c : Str) (s : Nat) : Prop :=
  ∀ e ≤ ahead ev.slots (homeSlot hasher ev.slots t c) s,
    Covered ev.slots (takenHomes hasher ev.slots ev.tags)
      ((homeSlot hasher ev.slots t c + e) % ev.slots)

/-- The event has a tag of exactly this name and value. -/
def Event.HasTag (ev : Event) (t : UInt8) (c : Str) : Prop :=
  ∃ tr ∈ ev.tags, tr.tag = [t] ∧ tr.content = c

/-- A slot that answers holds the number of a tag that has landed there. -/
theorem hit_lands {hasher : Str → UInt64} {ev : Event} (hs : s < ev.slots)
    (htaken : free 0 (ev.built hasher).tagHashMap s = false) :
    ∃ i, Lands hasher ev.slots ev.tags i s ∧
      (ev.built hasher).tagAt s = ev.numbered i := by
  obtain ⟨i, hlands, hv⟩ := tableOf_entry ev.tags (slots_lt ev) hs htaken
  refine ⟨i, hlands, ?_⟩
  have hnumber : (UInt16.ofNat (i + 1)).toNat - 1 = (i + 1) % 65536 - 1 := by simp
  rw [Event.tagAt, built_map, hv, hnumber]
  rfl

theorem Lands.hit {hasher : Str → UInt64} {ev : Event} (h : Lands hasher ev.slots ev.tags i s)
    (htarget : ev.numbered i = some tr) (hanswers : tr.answers t c = true) :
    (ev.built hasher).hitAt t c s = true := by
  obtain ⟨htaken, hv⟩ := h.entry (slots_lt ev)
  obtain ⟨k, hk, hat⟩ := hit_lands h.slot htaken
  rw [h.unique (slots_lt ev) hk] at htarget
  simp [Event.hitAt, hat, htarget, hanswers]

/-- What a search finds: its first answer, at a slot that its walk reaches. -/
theorem find_some {hasher : Str → UInt64} {ev : Event}
    (h : (ev.built hasher).findIndexedTag hasher t c = some tr) :
    ∃ i s, Lands hasher ev.slots ev.tags i s ∧ ev.numbered i = some tr ∧ tr.answers t c = true ∧
      ev.Reaches hasher t c s ∧
      ∀ e < ahead ev.slots (homeSlot hasher ev.slots t c) s,
        (ev.built hasher).hitAt t c ((homeSlot hasher ev.slots t c + e) % ev.slots) = false := by
  obtain ⟨s, hs, hp, hstop, hbefore⟩ := search_ends hasher ev t c
  unfold Event.findIndexedTag at h
  simp only [hp] at h
  split at h
  · cases h
  split at h
  · cases h
  rename_i htaken
  simp only [Bool.not_eq_true] at htaken
  have hhit : (ev.built hasher).hitAt t c s = true := by simpa [htaken] using hstop
  obtain ⟨i, hlands, hat⟩ := hit_lands hs htaken
  refine ⟨i, s, hlands, hat ▸ h, by simpa [Event.hitAt, h] using hhit, fun e he => ?_,
    fun e he => (hbefore e he).2⟩
  have hhome := homeSlot_lt hasher ev t c
  have hcovered (x : Nat) (hx : x < ev.slots) (hf : free 0 (ev.built hasher).tagHashMap x = false) :
      Covered ev.slots (takenHomes hasher ev.slots ev.tags) x :=
        (taken_iff_covered ev.tags (slots_lt ev) hx).mp hf
  rcases Nat.lt_or_eq_of_le he with he | rfl
  · exact hcovered _ (Nat.mod_lt _ (by omega)) (hbefore e he).1
  · rw [round_ahead hhome hs]
    exact hcovered s hs htaken

/-- A search that reaches an answer finds one. -/
theorem find_isSome {hasher : Str → UInt64} {ev : Event}
    (hlands : Lands hasher ev.slots ev.tags i s) (htarget : ev.numbered i = some tr)
    (hanswers : tr.answers t c = true) (hreach : ev.Reaches hasher t c s) :
    ∃ tr', (ev.built hasher).findIndexedTag hasher t c = some tr' := by
  obtain ⟨k, hk, hp, hstop, hbefore⟩ := search_ends hasher ev t c
  have hhit := hlands.hit htarget hanswers
  have hhome := homeSlot_lt hasher ev t c
  have htaken : free 0 (ev.built hasher).tagHashMap k = false := by
    have hle : ahead ev.slots (homeSlot hasher ev.slots t c) k ≤
        ahead ev.slots (homeSlot hasher ev.slots t c) s := by
      by_contra hfar
      have hmiss := (hbefore _ (Nat.not_le.mp hfar)).2
      rw [round_ahead hhome hlands.slot, hhit] at hmiss
      cases hmiss
    have hcovered := hreach _ hle
    rw [round_ahead hhome hk] at hcovered
    exact (taken_iff_covered ev.tags (slots_lt ev) hk).mpr hcovered
  have hhit' : (ev.built hasher).hitAt t c k = true := by simpa [htaken] using hstop
  have hnonempty : (ev.built hasher).tagHashMap.isEmpty = false := by
    rw [List.isEmpty_eq_false_iff_exists_mem]
    exact List.exists_mem_of_length_pos (by rw [built_length]; have := slots_lt ev; omega)
  simp only [Event.hitAt, Option.any_eq_true] at hhit'
  obtain ⟨tr', hat, -⟩ := hhit'
  exact ⟨tr', by simp [Event.findIndexedTag, hnonempty, hp, htaken, hat]⟩

/-- A search for a name of one character and a value finds a tag of exactly these, if the
event has one, and nothing otherwise. -/
def Event.TableExact (hasher : Str → UInt64) (ev : Event) : Prop :=
  ∀ t c, match ev.findIndexedTag hasher t c with
    | some tr => tr ∈ ev.tags ∧ tr.tag = [t] ∧ tr.content = c
    | none => ¬ ev.HasTag t c

/-- Every insertion finds a free slot, and every search a free slot or an answer. -/
def Event.LoopsEnd (hasher : Str → UInt64) (ev : Event) : Prop :=
  (∀ pre t post, ev.tags = pre ++ t :: post → ∀ c, ∃ s,
    probe (free 0 (tableOf hasher ev.slots pre)) (tableOf hasher ev.slots pre).length
      (tableOf hasher ev.slots pre).length
      ((tagHash hasher c t.content).toNat % (tableOf hasher ev.slots pre).length) = some s) ∧
  ∀ t c, ∃ s, probe (fun j => free 0 (ev.built hasher).tagHashMap j ||
    (ev.built hasher).hitAt t c j)
    (ev.built hasher).tagHashMap.length (ev.built hasher).tagHashMap.length
    ((tagHash hasher t c).toNat % (ev.built hasher).tagHashMap.length) = some s

/-- A name of one character with a value from the 65536th tag on is there before it too. -/
def Event.EarlyTwins (ev : Event) : Prop :=
  ∀ i tr, ev.tags[i]? = some tr → tr.tag.length = 1 → 65535 ≤ i →
    ∃ k < 65535, ∃ tr', ev.tags[k]? = some tr' ∧ tr'.tag = tr.tag ∧ tr'.content = tr.content

/-- No walk for a name and a value that are not there comes by the slot of a late tag
whose 16-bit number stands for a tag that looks like them. -/
def Event.NoStrays (hasher : Str → UInt64) (ev : Event) : Prop :=
  ∀ i s t c tr, 65536 ≤ i → Lands hasher ev.slots ev.tags i s → ev.numbered i = some tr →
    tr.answers t c = true →
    ev.Reaches hasher t c s → ev.HasTag t c

theorem loops_end (hasher : Str → UInt64) (ev : Event) : ev.LoopsEnd hasher := by
  refine ⟨fun pre t post he c => ?_, fun t c => ?_⟩
  · have hshort : pre.length < ev.slots := by
      have hlen := congrArg List.length he
      have hsize := slots_lt ev
      simp only [List.length_append, List.length_cons] at hlen
      omega
    obtain ⟨hl, hc⟩ := tableOf_room hasher ev.slots pre hshort
    have hroom : (tableOf hasher ev.slots pre).countP (fun v => v ≠ 0) <
        (tableOf hasher ev.slots pre).length := by omega
    obtain ⟨k, hk, hf⟩ := exists_free _ hroom
    obtain ⟨s, d, hp, -⟩ := probe_total (Nat.mod_lt _ (by omega)) hk hf
    exact ⟨s, hp⟩
  · obtain ⟨s, -, hp, -⟩ := search_ends hasher ev t c
    exact ⟨s, hp⟩

/-- A tag among the first 65535 has its own number, and is reached from its home. -/
theorem early_tag (hasher : Str → UInt64) {ev : Event} (hk : k < 65535)
    (hget : ev.tags[k]? = some tr) (hname : tr.tag = [t]) :
    ∃ s, Lands hasher ev.slots ev.tags k s ∧ ev.numbered k = some tr ∧
      tr.answers t tr.content = true ∧
      ev.Reaches hasher t tr.content s := by
  have hnumber : (k + 1) % 65536 - 1 = k := by omega
  have htakes : takesSlot k tr = true := by
    have hne : ¬ (k + 1) % 65536 = 0 := by omega
    simp [takesSlot, hname, hne]
  obtain ⟨s, hlands⟩ := exists_lands hasher (slots_lt ev) hget htakes
  have hhome : tr.home hasher ev.slots = homeSlot hasher ev.slots t tr.content := by
    rw [Tag.home, hname]; rfl
  refine ⟨s, hlands, by rw [Event.numbered, hnumber, hget], by simp [Tag.answers, hname], ?_⟩
  unfold Event.Reaches
  rw [← hhome]
  exact hlands.reached (slots_lt ev) hget

/-- With its twins, a name and a value that are there have a tag among the first 65535. -/
theorem Event.EarlyTwins.early {ev : Event} (h : ev.EarlyTwins) (hhas : ev.HasTag t c) :
    ∃ k < 65535, ∃ tr, ev.tags[k]? = some tr ∧ tr.tag = [t] ∧ tr.content = c := by
  obtain ⟨tr, hin, hname, hvalue⟩ := hhas
  obtain ⟨i, hget⟩ := List.mem_iff_getElem?.mp hin
  by_cases hi : i < 65535
  · exact ⟨i, hi, tr, hget, hname, hvalue⟩
  · obtain ⟨k, hk, tr', hget', hname', hvalue'⟩ :=
      h i tr hget (by rw [hname]; rfl) (Nat.not_lt.mp hi)
    exact ⟨k, hk, tr', hget', hname'.trans hname, hvalue'.trans hvalue⟩

/-- No late tag is answered where an early one of the same name and value is found. -/
theorem late_not_first {hasher : Str → UInt64} {ev : Event} (hi : 65536 ≤ i)
    (hlands : Lands hasher ev.slots ev.tags i s) (hk : k < 65535) (hget : ev.tags[k]? = some tr)
    (hname : tr.tag = [t]) (hfirst : ∀ e < ahead ev.slots (homeSlot hasher ev.slots t tr.content) s,
      (ev.built hasher).hitAt t tr.content
        ((homeSlot hasher ev.slots t tr.content + e) % ev.slots) = false) : False := by
  have hsize := slots_lt ev
  obtain ⟨s', hlands', hnumber, hanswers, -⟩ := early_tag hasher hk hget hname
  have hhome := homeSlot_lt hasher ev t tr.content
  have hle : ahead ev.slots (homeSlot hasher ev.slots t tr.content) s ≤
      ahead ev.slots (homeSlot hasher ev.slots t tr.content) s' := by
    by_contra hfar
    have hmiss := hfirst _ (Nat.not_le.mp hfar)
    rw [round_ahead hhome hlands'.slot, hlands'.hit hnumber hanswers] at hmiss
    cases hmiss
  rcases Nat.lt_or_eq_of_le hle with hlt | he
  · obtain ⟨tr', hget', -, hwalk⟩ := hlands'.tag
    cases hget.symm.trans hget'
    have hsame : tr.home hasher ev.slots = homeSlot hasher ev.slots t tr.content := by
      rw [Tag.home, hname]; rfl
    rw [hsame] at hwalk
    have hcovered := hwalk _ hlt
    rw [round_ahead hhome hlands.slot] at hcovered
    exact hlands.free (covered_later ev.tags (by omega) hcovered)
  · have hslot : s = s' := by
      rw [← round_ahead hhome hlands.slot, he, round_ahead hhome hlands'.slot]
    have hik := hlands.unique hsize (hslot ▸ hlands')
    omega

theorem tableExact_of {hasher : Str → UInt64} {ev : Event} (htwins : ev.EarlyTwins)
    (hstrays : ev.NoStrays hasher) :
    (ev.built hasher).TableExact hasher := by
  intro t c
  split
  · rename_i tr hfind
    obtain ⟨i, s, hlands, hnumber, hanswers, hreach, hfirst⟩ := find_some hfind
    obtain ⟨tag, hget, htakes, -⟩ := hlands.tag
    simp only [takesSlot, Bool.and_eq_true, decide_eq_true_eq] at htakes
    by_cases hi : 65536 ≤ i
    · obtain ⟨k, hk, tr', hget', hname, rfl⟩ :=
        htwins.early (hstrays i s t c tr hi hlands hnumber hanswers hreach)
      exact (late_not_first hi hlands hk hget' hname hfirst).elim
    · have hown : (i + 1) % 65536 - 1 = i := by omega
      rw [Event.numbered, hown, hget] at hnumber
      cases hnumber
      obtain ⟨x, hx⟩ := List.length_eq_one_iff.mp htakes.1
      simp only [Tag.answers, hx, List.getD_cons_zero, Bool.and_eq_true, beq_iff_eq] at hanswers
      exact ⟨List.mem_of_getElem? hget, by rw [hx, hanswers.1], hanswers.2⟩
  · rename_i hnone
    intro hhas
    obtain ⟨k, hk, tr, hget, hname, rfl⟩ := htwins.early hhas
    obtain ⟨s, hlands, hnumber, hanswers, hreach⟩ := early_tag hasher hk hget hname
    obtain ⟨tr', hfind⟩ := find_isSome hlands hnumber hanswers hreach
    cases hnone.symm.trans hfind

theorem earlyTwins_of {hasher : Str → UInt64} {ev : Event}
    (h : (ev.built hasher).TableExact hasher) : ev.EarlyTwins := by
  intro i tr hget hname hi
  obtain ⟨t, ht⟩ := List.length_eq_one_iff.mp hname
  have hexact := h t tr.content
  split at hexact
  · rename_i tr' hfind
    obtain ⟨k, s, hlands, hnumber, -⟩ := find_some hfind
    obtain ⟨_, hname', hvalue'⟩ := hexact
    exact ⟨(k + 1) % 65536 - 1, by omega, tr', hnumber, hname'.trans ht.symm, hvalue'⟩
  · exact (hexact ⟨tr, List.mem_of_getElem? hget, ht, rfl⟩).elim

theorem noStrays_of {hasher : Str → UInt64} {ev : Event} (h : (ev.built hasher).TableExact hasher) :
    ev.NoStrays hasher := by
  intro i s t c tr _ hlands hnumber hanswers hreach
  obtain ⟨tr', hfind⟩ := find_isSome hlands hnumber hanswers hreach
  have hexact := h t c
  simp only [hfind] at hexact
  exact ⟨tr', hexact⟩

/-- The loops of the tag table always end. The table is exact exactly when no tag from the
65536th on is alone with its name and value, and none is taken for another. -/
theorem tag_table_exact_iff (hasher : Str → UInt64) (ev : Event) : ev.LoopsEnd hasher ∧
    ((ev.built hasher).TableExact hasher ↔ ev.EarlyTwins ∧ ev.NoStrays hasher) :=
  ⟨loops_end hasher ev, fun h => ⟨earlyTwins_of h, noStrays_of h⟩, fun h => tableExact_of h.1 h.2⟩

/-- Up to 65535 tags the table is exact. -/
theorem tableExact_of_few (hasher : Str → UInt64) {ev : Event} (h : ev.tags.length ≤ 65535) :
    (ev.built hasher).TableExact hasher := by
  refine tableExact_of (fun i tr hget _ hi => ?_) (fun i s t c tr hi hlands _ _ _ => ?_)
  · have hlt := (List.getElem?_eq_some_iff.mp hget).1
    omega
  · obtain ⟨tag, hget, -⟩ := hlands.tag
    have hlt := (List.getElem?_eq_some_iff.mp hget).1
    omega

/-- An event with its table as `build_hash_map` makes it. -/
theorem Event.Indexed.built_eq {ev : Event} (hi : ev.Indexed hasher) : ev.built hasher = ev := by
  unfold Event.built
  rw [← hi]

/-- Up to 65535 tags the table answers with tags of the asked one-character name. -/
theorem Event.Indexed.tableSound {ev : Event} (hi : ev.Indexed hasher)
    (h16 : ev.tags.length ≤ 65535) :
    ev.TableSound hasher := by
  intro t c tr h
  have hexact := tableExact_of_few hasher h16 t c
  rw [hi.built_eq, h] at hexact
  exact hexact.2.1

/-- Up to 65535 tags no tag of a one-character name is missed. -/
theorem Event.Indexed.table_complete {ev : Event} (hi : ev.Indexed hasher)
    (h16 : ev.tags.length ≤ 65535) (hm : tr ∈ ev.tags) (ht : tr.tag = [t]) :
    ∃ tr', ev.findIndexedTag hasher t tr.content = some tr' := by
  have hexact := tableExact_of_few hasher h16 t tr.content
  rw [hi.built_eq] at hexact
  split at hexact
  · rename_i tr' hfind
    exact ⟨tr', hfind⟩
  · exact absurd ⟨tr, hm, ht, rfl⟩ hexact

/-- A tag that no number stands for is missed. -/
theorem not_exact_of_unnumbered {hasher : Str → UInt64} {ev : Event} (hhas : ev.HasTag t c)
    (hother : ∀ k tr, ev.numbered k = some tr → tr.tag ≠ [t]) :
    ¬ (ev.built hasher).TableExact hasher := by
  intro h
  have hexact := h t c
  split at hexact
  · rename_i tr hfind
    obtain ⟨k, s, -, hnumber, -⟩ := find_some hfind
    exact hother k tr hnumber hexact.2.1
  · exact hexact hhas

/-- One tag named "t" after 65535 others. -/
def lateTag : Tag := ⟨str "t", str "x", []⟩

def manyTags : Event := { note with tags := List.replicate 65535 ⟨str "aa", [], []⟩ ++ [lateTag] }

/-- The late tag is not found: no number stands for it. -/
theorem late_tag_missed : ¬ (manyTags.built fnv1a).TableExact fnv1a := by
  have hhas : manyTags.HasTag 116 (str "x") :=
    ⟨lateTag, List.mem_append_right _ (List.mem_singleton_self _), by decide, rfl⟩
  apply not_exact_of_unnumbered hhas
  intro k tr hnumber
  have hother : manyTags.numbered k = some ⟨str "aa", [], []⟩ := by
    have hk : (k + 1) % 65536 - 1 < 65535 := by omega
    have hlen : (k + 1) % 65536 - 1 < (List.replicate 65535 (⟨str "aa", [], []⟩ : Tag)).length := by
      rw [List.length_replicate]
      exact hk
    rw [Event.numbered, manyTags, List.getElem?_append_left hlen,
      List.getElem?_replicate, if_pos hk]
  cases hnumber.symm.trans hother
  decide

end NostrServer
