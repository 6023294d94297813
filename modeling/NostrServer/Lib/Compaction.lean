import Mathlib.Data.List.Basic

namespace Compaction

variable {α σ : Type}

/-- `remove_if` over `left` elements from `first` on: the range after it, and where the
kept part ends. An element that is moved leaves `moved` behind; `none` is a read outside
the range. -/
def removeIf (moved : α → α) (pred : List α → σ → α → Option (Bool × σ)) :
    Nat → List α → Nat → Nat → σ → Option (List α × Nat)
  | 0, range, _, result, _ => some (range, result)
  | left + 1, range, first, result, s => do
    let x ← range[first]?
    let (removes, s) ← pred range s x
    if removes then removeIf moved pred left range (first + 1) result s
    else
      removeIf moved pred left ((range.set first (moved x)).set result x) (first + 1) (result + 1) s

def kept (removes : List α → α → Bool) : List α → List α → List α
  | done, [] => done
  | done, x :: rest =>
    if removes done x then kept removes done rest else kept removes (done ++ [x]) rest

/-- The predicate decides by the kept part alone, which its state follows. -/
def Follows (pred : List α → σ → α → Option (Bool × σ)) (removes : List α → α → Bool)
    (state : List α → σ) : Prop :=
  ∀ done beyond x, done ≠ [] → pred (done ++ beyond) (state done) x =
    some (removes done x, state (if removes done x then done else done ++ [x]))

/-- Moving the first element after a gap down closes the gap by one. -/
theorem moved_down (moved : α → α) (done gap rest : List α) (x : α) :
    ∃ gap', gap'.length = gap.length ∧
      ((done ++ gap ++ x :: rest).set (done.length + gap.length) (moved x)).set done.length x =
        done ++ [x] ++ gap' ++ rest := by
  have hfirst : (done ++ gap ++ x :: rest).set (done.length + gap.length) (moved x) =
      done ++ (gap ++ moved x :: rest) := by
    rw [← List.length_append, List.set_append_right _ _ (Nat.le_refl _)]
    simp
  rw [hfirst, List.set_append_right _ _ (Nat.le_refl _), Nat.sub_self]
  cases gap with
  | nil => exact ⟨[], rfl, by simp⟩
  | cons g gap => exact ⟨gap ++ [moved x], by simp, by simp⟩

/-- The range starts with what is kept, whatever gap the removed elements have left. -/
theorem removeIf_kept {pred : List α → σ → α → Option (Bool × σ)} {removes : List α → α → Bool}
    {state : List α → σ} (h : Follows pred removes state) (moved : α → α)
    (rest done gap : List α) (hne : done ≠ []) :
    ∃ beyond, removeIf moved pred rest.length (done ++ gap ++ rest) (done.length + gap.length)
      done.length (state done) =
        some (kept removes done rest ++ beyond, (kept removes done rest).length) := by
  induction rest generalizing done gap with
  | nil => exact ⟨gap, by simp [removeIf, kept]⟩
  | cons x rest ih =>
    have hread : (done ++ gap ++ x :: rest)[done.length + gap.length]? = some x := by
      rw [← List.length_append, List.getElem?_append_right (Nat.le_refl _), Nat.sub_self]
      rfl
    have hpred := h done (gap ++ x :: rest) x hne
    rw [← List.append_assoc] at hpred
    simp only [List.length_cons, removeIf, hread, hpred, Option.bind_eq_bind,
      Option.bind_some, kept]
    cases removes done x with
    | true =>
      obtain ⟨beyond, hih⟩ := ih done (gap ++ [x]) hne
      refine ⟨beyond, ?_⟩
      simpa [Nat.add_assoc, List.append_assoc] using hih
    | false =>
      obtain ⟨gap', hlen, hset⟩ := moved_down moved done gap rest x
      obtain ⟨beyond, hih⟩ := ih (done ++ [x]) gap' (by simp)
      refine ⟨beyond, ?_⟩
      have hfirst : done.length + gap.length + 1 = (done ++ [x]).length + gap'.length := by
        simp [hlen]
        omega
      have hresult : done.length + 1 = (done ++ [x]).length := by simp
      simp only [Bool.false_eq_true, ↓reduceIte] at hih ⊢
      rw [hset, hfirst, hresult]
      exact hih

end Compaction
