import Mathlib.Data.List.Forall2
import NostrServer.Lib.Runs

namespace Machine
variable {σ ι ρ : Type} (m : Machine σ ι)

/-- The inputs that are taken, each with the state it is taken in. -/
def turnsFrom (takes : σ → ι → Bool) : σ → List ι → List (σ × ι)
  | _, [] => []
  | s, x :: xs => (if takes s x then [(s, x)] else []) ++ turnsFrom takes (m.step s x) xs

def turns (takes : σ → ι → Bool) (inputs : List ι) : List (σ × ι) :=
  m.turnsFrom takes m.start inputs

variable {m} {takes : σ → ι → Bool}

theorem turns_snoc (pre : List ι) (x : ι) : m.turns takes (pre ++ [x]) =
    m.turns takes pre ++ if takes (m.run pre) x then [(m.run pre, x)] else [] := by
  have hfrom (s : σ) : m.turnsFrom takes s (pre ++ [x]) = m.turnsFrom takes s pre ++
      if takes (pre.foldl m.step s) x then [(pre.foldl m.step s, x)] else [] := by
    induction pre generalizing s with
    | nil => exact List.append_nil _
    | cons y pre ih =>
      rw [List.cons_append, turnsFrom, turnsFrom, ih (m.step s y), List.append_assoc]
      rfl
  exact hfrom m.start

/-- What is written falls into one group for each turn. -/
theorem transcript (said : σ → List ρ) {answers : σ × ι → List ρ → Prop}
    (hstart : said m.start = [])
    (htaken : ∀ pre x, takes (m.run pre) x = true → ∃ replies,
      said (m.run (pre ++ [x])) = said (m.run pre) ++ replies ∧ answers (m.run pre, x) replies)
    (hother : ∀ pre x, takes (m.run pre) x = false →
      said (m.run (pre ++ [x])) = said (m.run pre)) (inputs : List ι) :
    ∃ groups, said (m.run inputs) = groups.flatten ∧
      List.Forall₂ answers (m.turns takes inputs) groups := by
  induction inputs using List.reverseRecOn with
  | nil => exact ⟨[], hstart, .nil⟩
  | append_singleton pre x ih =>
    obtain ⟨groups, hsaid, hanswers⟩ := ih
    rw [turns_snoc]
    cases ht : takes (m.run pre) x with
    | false => exact ⟨groups, (hother pre x ht).trans hsaid, by simpa using hanswers⟩
    | true =>
      obtain ⟨replies, hx, hreplies⟩ := htaken pre x ht
      refine ⟨groups ++ [replies], by simp [hx, hsaid], ?_⟩
      exact List.rel_append hanswers (.cons hreplies .nil)

end Machine
