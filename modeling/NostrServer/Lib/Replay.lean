import Mathlib.Data.Set.Basic
import NostrServer.Lib.Runs

/-- Which entries stay in the store, and what an entry that does takes out. -/
structure Journal (α : Type) where
  kept : α → Prop
  replaces : α → α → Prop

namespace Journal
variable {α : Type} (j : Journal α)

def enter (s : Set α) (e : α) : Set α :=
  {x | (x = e ∧ j.kept e) ∨ (x ∈ s ∧ ¬ (j.kept e ∧ j.replaces e x))}

def replay (log : List α) : Set α := log.foldl j.enter ∅

@[simp] theorem replay_nil : j.replay [] = ∅ := rfl

@[simp] theorem replay_snoc (log : List α) (e : α) :
    j.replay (log ++ [e]) = j.enter (j.replay log) e := by
  simp [replay]

theorem enter_of_not_kept {e : α} (h : ¬ j.kept e) (s : Set α) : j.enter s e = s := by
  ext x
  simp [enter, h]

/-- What was entered and not replaced by a later entry is what the store holds. -/
theorem mem_replay {log : List α} {x : α} : x ∈ j.replay log ↔
    ∃ before after, log = before ++ x :: after ∧ j.kept x ∧
      ∀ e ∈ after, j.kept e → ¬ j.replaces e x := by
  induction log using List.reverseRecOn with
  | nil => simp
  | append_singleton log e ih =>
    rw [replay_snoc]
    constructor
    · rintro (⟨rfl, hkept⟩ | ⟨hx, hno⟩)
      · exact ⟨log, [], rfl, hkept, fun _ h => absurd h List.not_mem_nil⟩
      · obtain ⟨before, after, rfl, hkept, hlater⟩ := ih.mp hx
        refine ⟨before, after ++ [e], by simp, hkept, fun d hd hk hr => ?_⟩
        rcases List.mem_append.mp hd with hd | hd
        · exact hlater d hd hk hr
        · rw [List.mem_singleton.mp hd] at hk hr
          exact hno ⟨hk, hr⟩
    · rintro ⟨before, after, he, hkept, hlater⟩
      rcases List.eq_nil_or_concat after with rfl | ⟨after, d, rfl⟩
      · obtain ⟨rfl, hx⟩ := List.append_inj' he rfl
        cases hx
        exact Or.inl ⟨rfl, hkept⟩
      · rw [List.concat_eq_append, ← List.cons_append, ← List.append_assoc] at he
        obtain ⟨rfl, hd⟩ := List.append_inj' he rfl
        cases hd
        refine Or.inr ⟨ih.mpr ⟨before, after, rfl, hkept, fun d hd => ?_⟩, ?_⟩
        · exact hlater d (by simp [hd])
        · exact fun h => hlater e (by simp) h.1 h.2

variable {j} {σ ι : Type} {m : Machine σ ι} {ok : σ → ι → Prop}

/-- A machine whose steps enter in the store exactly what they add to the log, and add
only what the store admits. -/
theorem replayed (store : σ → Set α) (log : σ → List α) (admits : Set α → α → Prop)
    (hstore : store m.start = ∅) (hlog : log m.start = [])
    (hstep : ∀ pre x, ok (m.run pre) x →
      (log (m.run (pre ++ [x])) = log (m.run pre) ∧
        store (m.run (pre ++ [x])) = store (m.run pre)) ∨
      ∃ e, log (m.run (pre ++ [x])) = log (m.run pre) ++ [e] ∧
        store (m.run (pre ++ [x])) = j.enter (store (m.run pre)) e ∧ admits (store (m.run pre)) e)
    (h : m.Throughout ok inputs) :
    store (m.run inputs) = j.replay (log (m.run inputs)) ∧
      ∀ before e after, log (m.run inputs) = before ++ e :: after → admits (j.replay before) e := by
  refine Machine.run_induction
    (P := fun inputs => store (m.run inputs) = j.replay (log (m.run inputs)) ∧
      ∀ before e after, log (m.run inputs) = before ++ e :: after →
        admits (j.replay before) e) ?_ ?_ h
  · have hnil : log (m.run []) = [] := hlog
    rw [hnil]
    exact ⟨hstore, fun before e after he => absurd he (by simp)⟩
  · intro pre x ⟨ihstore, ihlog⟩ hx
    rcases hstep pre x hx with ⟨hl, hs⟩ | ⟨e, hl, hs, hadmits⟩
    · rw [hl, hs]
      exact ⟨ihstore, ihlog⟩
    · rw [hl, hs, ihstore, replay_snoc]
      refine ⟨rfl, fun before d after he => ?_⟩
      rcases List.eq_nil_or_concat after with rfl | ⟨after, c, rfl⟩
      · obtain ⟨rfl, hd⟩ := List.append_inj' he rfl
        cases hd
        exact ihstore ▸ hadmits
      · rw [List.concat_eq_append, ← List.cons_append, ← List.append_assoc] at he
        exact ihlog before d after (List.append_inj' he rfl).1

end Journal
