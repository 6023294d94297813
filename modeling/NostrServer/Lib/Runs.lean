import Mathlib.Data.List.Induction

structure Machine (σ ι : Type) where
  start : σ
  step : σ → ι → σ

namespace Machine
variable {σ ι : Type} (m : Machine σ ι)

def run (inputs : List ι) : σ := inputs.foldl m.step m.start

theorem run_snoc (pre : List ι) (x : ι) : m.run (pre ++ [x]) = m.step (m.run pre) x := by
  simp [run]

/-- Every step of the run meets the condition in the state it is taken in. -/
def Throughout (ok : σ → ι → Prop) (inputs : List ι) : Prop :=
  ∀ pre x post, inputs = pre ++ x :: post → ok (m.run pre) x

variable {m} {ok : σ → ι → Prop}

theorem Throughout.leading (h : m.Throughout ok (pre ++ post)) : m.Throughout ok pre :=
  fun p x q he => h p x (q ++ post) (by simp [he])

theorem Throughout.last (h : m.Throughout ok (pre ++ [x])) : ok (m.run pre) x := h pre x [] rfl

theorem throughout_nil : m.Throughout ok [] := fun pre x post he => absurd he (by simp)

theorem Throughout.snoc (h : m.Throughout ok pre) (hx : ok (m.run pre) x) :
    m.Throughout ok (pre ++ [x]) := by
  intro p y q he
  rcases List.eq_nil_or_concat q with rfl | ⟨q, z, rfl⟩
  · obtain ⟨rfl, hxy⟩ := List.append_inj' he rfl
    cases hxy
    exact hx
  · rw [List.concat_eq_append, ← List.cons_append, ← List.append_assoc] at he
    exact h p y q (List.append_inj' he rfl).1

/-- Induction on how far the run has come. -/
theorem run_induction {P : List ι → Prop} (hstart : P [])
    (hstep : ∀ pre x, P pre → ok (m.run pre) x → P (pre ++ [x])) (h : m.Throughout ok inputs) :
    P inputs := by
  induction inputs using List.reverseRecOn with
  | nil => exact hstart
  | append_singleton pre x ih => exact hstep pre x (ih h.leading) h.last

/-- What every step keeps holds in the end. -/
theorem run_invariant {P : σ → Prop} (hstart : P m.start)
    (hstep : ∀ s x, P s → ok s x → P (m.step s x)) (h : m.Throughout ok inputs) :
    P (m.run inputs) :=
  run_induction (P := fun inputs => P (m.run inputs)) hstart
    (fun pre x hp hx => m.run_snoc pre x ▸ hstep _ x hp hx) h

/-- Where the condition is what a step needs to keep the invariant and what it says, the
states of a run show whether every step met it. -/
theorem always_iff_throughout {I P : σ → Prop} (hstart : I m.start) (hall : ∀ s, I s → P s)
    (hstep : ∀ s x, I s → ok s x → I (m.step s x))
    (honly : ∀ s x, I s → P (m.step s x) → ok s x) (inputs : List ι) :
    (∀ pre post, inputs = pre ++ post → P (m.run pre)) ↔ m.Throughout ok inputs := by
  constructor
  · intro hpre
    induction inputs using List.reverseRecOn with
    | nil => exact throughout_nil
    | append_singleton pre x ih =>
      have h : m.Throughout ok pre :=
        ih (fun p post he => hpre p (post ++ [x]) (by simp [he]))
      have hinv : I (m.run pre) := run_invariant hstart hstep h
      have hlast : P (m.step (m.run pre) x) := m.run_snoc pre x ▸ hpre _ [] (by simp)
      exact h.snoc (honly _ x hinv hlast)
  · intro h pre post he
    exact hall _ (run_invariant hstart hstep (he ▸ h).leading)

/-- An invariant that needs no condition. -/
theorem run_always {P : σ → Prop} (hstart : P m.start) (hstep : ∀ s x, P s → P (m.step s x))
    (inputs : List ι) :
    P (m.run inputs) :=
  have h : m.Throughout (fun _ _ => True) inputs := fun _ _ _ _ => trivial
  run_invariant hstart (fun s x hp _ => hstep s x hp) h

end Machine
