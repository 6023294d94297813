import Mathlib.Data.List.Nodup
import Mathlib.Data.List.Induction
import Mathlib.Logic.Function.Basic

inductive KeyOp (κ ν : Type) where
  | opens (k : κ) (v : ν)
  | closes (k : κ)

def KeyOp.key : KeyOp κ ν → κ
  | .opens k _ => k
  | .closes k => k

namespace KeyedList
variable {κ ν : Type} [DecidableEq κ]

def applied (t : κ → Option ν) : KeyOp κ ν → κ → Option ν
  | .opens k v => Function.update t k (some v)
  | .closes k => Function.update t k none

def made (ops : List (KeyOp κ ν)) : κ → Option ν := ops.foldl applied (fun _ => none)

@[simp] theorem made_nil : made ([] : List (KeyOp κ ν)) = fun _ => none := rfl

theorem made_snoc (ops : List (KeyOp κ ν)) (op : KeyOp κ ν) :
    made (ops ++ [op]) = applied (made ops) op := by
  simp [made]

theorem applied_other (t : κ → Option ν) (op : KeyOp κ ν) (h : op.key ≠ k) :
    applied t op k = t k := by
  cases op <;> exact Function.update_of_ne (Ne.symm h) _ _

/-- What the map holds under a key is the value last opened and not closed since. -/
theorem made_eq_some {ops : List (KeyOp κ ν)} : made ops k = some v ↔
    ∃ before after, ops = before ++ .opens k v :: after ∧ ∀ op ∈ after, op.key ≠ k := by
  induction ops using List.reverseRecOn with
  | nil => simp
  | append_singleton ops op ih =>
    rw [made_snoc]
    by_cases hk : op.key = k
    · constructor
      · intro h
        cases op with
        | opens k' v' =>
          obtain rfl : k' = k := hk
          simp only [applied, Function.update_self, Option.some.injEq] at h
          exact ⟨ops, [], by rw [h], by simp⟩
        | closes k' =>
          obtain rfl : k' = k := hk
          simp [applied] at h
      · intro ⟨before, after, he, hafter⟩
        rcases List.eq_nil_or_concat after with rfl | ⟨after, last, rfl⟩
        · obtain ⟨rfl, hop⟩ := List.append_inj' he rfl
          obtain rfl := (List.cons.inj hop).1
          simp [applied]
        · rw [List.concat_eq_append, ← List.cons_append, ← List.append_assoc] at he
          obtain ⟨-, hop⟩ := List.append_inj' he rfl
          obtain rfl := (List.cons.inj hop).1
          exact absurd hk (hafter op (by simp))
    · rw [applied_other _ _ hk, ih]
      constructor
      · intro ⟨before, after, he, hafter⟩
        refine ⟨before, after ++ [op], by simp [he], fun o ho => ?_⟩
        rcases List.mem_append.mp ho with ho | ho
        · exact hafter o ho
        · exact List.mem_singleton.mp ho ▸ hk
      · intro ⟨before, after, he, hafter⟩
        rcases List.eq_nil_or_concat after with rfl | ⟨after, last, rfl⟩
        · obtain ⟨rfl, hop⟩ := List.append_inj' he rfl
          cases hop
          exact absurd rfl hk
        · rw [List.concat_eq_append, ← List.cons_append, ← List.append_assoc] at he
          obtain ⟨rfl, -⟩ := List.append_inj' he rfl
          exact ⟨before, after, rfl, fun o ho => hafter o (by simp [ho])⟩

def valuesUnder (l : List (κ × ν)) (k : κ) : List ν := (l.filter (fun e => e.1 = k)).map Prod.snd

/-- Under each key the list has the value of the map and no other. -/
def StandsFor (l : List (κ × ν)) (t : κ → Option ν) : Prop := ∀ k, valuesUnder l k = (t k).toList

variable {l : List (κ × ν)} {t : κ → Option ν}

theorem standsFor_nil : StandsFor ([] : List (κ × ν)) (fun _ => none) := fun _ => rfl

theorem valuesUnder_snoc (l : List (κ × ν)) (k : κ) (v : ν) (k' : κ) :
    valuesUnder (l ++ [(k, v)]) k' = valuesUnder l k' ++ if k = k' then [v] else [] := by
  by_cases h : k = k' <;> simp [valuesUnder, h]

/-- A list that is added to stands for the new map where the key was not in use. -/
theorem standsFor_snoc_iff (h : StandsFor l t) (k : κ) (v : ν) :
    StandsFor (l ++ [(k, v)]) (applied t (.opens k v)) ↔ t k = none := by
  constructor
  · intro h'
    have hk := h' k
    rw [valuesUnder_snoc, h k] at hk
    cases ht : t k with
    | none => rfl
    | some v' => simp [ht, applied] at hk
  · intro hn k'
    rw [valuesUnder_snoc, h k']
    by_cases hk : k = k'
    · subst hk
      simp [hn, applied]
    · simp [hk, applied, Function.update_of_ne (Ne.symm hk)]

/-- A list left alone does where it had that very value. -/
theorem standsFor_same_iff (h : StandsFor l t) (k : κ) (v : ν) :
    StandsFor l (applied t (.opens k v)) ↔ t k = some v := by
  constructor
  · intro h'
    have hk := h' k
    rw [h k] at hk
    cases ht : t k with
    | none => simp [ht, applied] at hk
    | some v' => simpa [ht, applied] using hk
  · intro ht k'
    by_cases hk : k = k'
    · subst hk
      simpa [applied, ht] using h k
    · simpa [applied, Function.update_of_ne (Ne.symm hk)] using h k'

theorem standsFor_closed (h : StandsFor l t) (k : κ) :
    StandsFor (l.filter (fun e => e.1 ≠ k)) (applied t (.closes k)) := by
  intro k'
  unfold valuesUnder
  rw [List.filter_filter]
  by_cases hk : k = k'
  · subst hk
    simp [applied]
  · have hsame : l.filter (fun e => decide (e.1 = k') && decide (e.1 ≠ k)) =
        l.filter (fun e => e.1 = k') := by
      apply List.filter_congr
      intro e _
      by_cases he : e.1 = k'
      · simp [he, Ne.symm hk]
      · simp [he]
    rw [hsame, applied, Function.update_of_ne (Ne.symm hk)]
    exact h k'

theorem mem_iff (h : StandsFor l t) : (k, v) ∈ l ↔ t k = some v := by
  have hk : (k, v) ∈ l ↔ v ∈ valuesUnder l k := by simp [valuesUnder]
  rw [hk, h k, Option.mem_toList]

/-- Each key is in the list once at most. -/
theorem keys_nodup (h : StandsFor l t) : (l.map Prod.fst).Nodup := by
  rw [List.nodup_iff_count_le_one]
  intro k
  have hlen : (l.map Prod.fst).count k = (valuesUnder l k).length := by
    rw [valuesUnder, List.length_map, ← List.countP_eq_length_filter, List.count_eq_countP,
      List.countP_map]
    exact List.countP_congr (fun e _ => by simp)
  rw [hlen, h k]
  cases t k <;> simp

end KeyedList
