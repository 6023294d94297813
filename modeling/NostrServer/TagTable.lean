import Mathlib.Data.List.Induction
import NostrServer.Event

namespace NostrServer
open Probing

/-- `build_hash_map` after its loop has gone over the tags in `pre`. -/
def tableOf (hasher : Str → UInt64) (size : Nat) (pre : List Tag) : List UInt16 :=
  pre.zipIdx.foldl (fun map p => buildStep hasher map p.2 p.1) (List.replicate size 0)

theorem tableOf_snoc (hasher : Str → UInt64) (size : Nat) (pre : List Tag) (t : Tag) :
    tableOf hasher size (pre ++ [t]) = buildStep hasher (tableOf hasher size pre) pre.length t := by
  simp [tableOf, List.zipIdx_append]

/-- What one turn of `build_hash_map` does while the table has room: a tag whose
name is one character fills the first free slot from its home. -/
theorem buildStep_cases (hasher : Str → UInt64) (map : List UInt16) (i : Nat) (t : Tag)
    (hroom : map.countP (fun v => v ≠ 0) < map.length) :
    (t.tag.length ≠ 1 ∧ buildStep hasher map i t = map) ∨
    ∃ c j, t.tag = [c] ∧
      probe (free 0 map) map.length map.length ((tagHash hasher c t.content).toNat % map.length) =
        some j ∧
      j < map.length ∧ free 0 map j = true ∧
      buildStep hasher map i t = map.set j (UInt16.ofNat (i + 1)) := by
  unfold buildStep
  split
  · rename_i c hc
    obtain ⟨k, hk, hf⟩ := exists_free map hroom
    have hh : (tagHash hasher c t.content).toNat % map.length < map.length :=
      Nat.mod_lt _ (by omega)
    obtain ⟨j, d, hp, _, ha, hj⟩ := probe_total hh hk hf
    exact Or.inr ⟨c, j, hc, hp, ha.1 ▸ Nat.mod_lt _ (by omega), hj, by simp [hp]⟩
  · rename_i hc
    refine Or.inl ⟨?_, rfl⟩
    intro h
    obtain ⟨c, hc'⟩ := List.length_eq_one_iff.mp h
    exact hc c hc'

/-- Room is never short: a table for `n` tags has `2 * n + 1` slots. -/
theorem tableOf_room (hasher : Str → UInt64) (size : Nat) (pre : List Tag)
    (hs : pre.length < size) :
    (tableOf hasher size pre).length = size ∧
    (tableOf hasher size pre).countP (fun v => v ≠ 0) ≤ pre.length := by
  induction pre using List.reverseRecOn with
  | nil => simp [tableOf]
  | append_singleton pre t ih =>
    simp only [List.length_append, List.length_singleton] at hs ⊢
    obtain ⟨hl, hc⟩ := ih (by omega)
    rw [tableOf_snoc]
    rcases buildStep_cases hasher (tableOf hasher size pre) pre.length t (by omega) with
      ⟨_, he⟩ | ⟨c, j, _, _, hj, _, he⟩
    · rw [he]
      exact ⟨hl, by omega⟩
    · rw [he]
      exact ⟨by simpa using hl, Nat.le_trans (count_fill _ hj _) (by omega)⟩

theorem findIndexedTag_cases {ev : Event} (h : ev.findIndexedTag hasher t c = some tr) :
    ∃ j, free 0 ev.tagHashMap j = false ∧ ev.tagAt j = some tr ∧ tr.answers t c = true := by
  unfold Event.findIndexedTag at h
  split at h
  · cases h
  · rename_i hempty
    dsimp only at h
    split at h
    · rename_i j hp
      split at h
      · cases h
      · rename_i hf
        have hpos : 0 < ev.tagHashMap.length := by
          cases hm : ev.tagHashMap with
          | nil => simp [hm] at hempty
          | cons => simp
        have hs := (probe_some (Nat.mod_lt _ hpos) hp).1
        have hhit : ev.hitAt t c j = true := by simpa [hf] using hs
        refine ⟨j, by simpa using hf, h, ?_⟩
        simpa [Event.hitAt, h] using hhit
    · cases h

/-- Whatever the table holds, the answer is a tag of the event with the asked
content whose name starts with the asked character. -/
theorem findIndexedTag_mem {ev : Event} (h : ev.findIndexedTag hasher t c = some tr) :
    tr ∈ ev.tags ∧ tr.answers t c = true := by
  obtain ⟨j, _, ht, ha⟩ := findIndexedTag_cases h
  exact ⟨List.mem_of_getElem? ht, ha⟩

/-- The answers of an event's tag table carry exactly the asked name. -/
def Event.TableSound (hasher : Str → UInt64) (ev : Event) : Prop :=
  ∀ t c tr, ev.findIndexedTag hasher t c = some tr → tr.tag = [t]

end NostrServer
