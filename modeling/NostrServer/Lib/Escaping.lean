import Mathlib.Data.List.Basic

/-- The characters that stand in quotes after a mark, each under a letter of its own. -/
structure Escaping (α : Type) where
  mark : α
  quote : α
  letter : α → Option α
  back : α → Option α
  back_letter : ∀ c l, letter c = some l → back l = some c
  mark_escaped : letter mark ≠ none
  quote_escaped : letter quote ≠ none
  distinct : mark ≠ quote

namespace Escaping

variable {α : Type} (E : Escaping α)

def escapeChar (c : α) : List α :=
  match E.letter c with
  | some l => [E.mark, l]
  | none => [c]

def escape (s : List α) : List α := s.flatMap E.escapeChar

/-- Text without characters to escape stands as it is. -/
theorem escape_plain (h : ∀ c ∈ s, E.letter c = none) : E.escape s = s := by
  induction s with
  | nil => rfl
  | cons c s ih =>
    have htail := ih (fun d hd => h d (List.mem_cons_of_mem _ hd))
    simp only [escape, List.flatMap_cons] at htail ⊢
    simp [escapeChar, h c List.mem_cons_self, htail]

/-- What is written is a mark, a letter, or no character to escape. -/
theorem mem_escape (h : d ∈ E.escape s) :
    d = E.mark ∨ (∃ c, E.letter c = some d) ∨ E.letter d = none := by
  obtain ⟨c, -, hd⟩ := List.mem_flatMap.mp h
  unfold escapeChar at hd
  split at hd
  · rename_i l hl
    rcases List.mem_cons.mp hd with rfl | hd
    · exact Or.inl rfl
    · rw [List.mem_singleton.mp hd]
      exact Or.inr (Or.inl ⟨c, hl⟩)
  · rename_i hnone
    rw [List.mem_singleton.mp hd]
    exact Or.inr (Or.inr hnone)

variable [DecidableEq α]

/-- Reads up to the closing quote: what was in quotes, and what comes after them. A
character that has a letter does not stand for itself. -/
def read : List α → Option (List α × List α)
  | [] => none
  | c :: rest =>
    if c = E.quote then some ([], rest)
    else if c = E.mark then
      match rest with
      | [] => none
      | l :: rest =>
        match E.back l with
        | some c => (read rest).map (fun r => (c :: r.1, r.2))
        | none => none
    else if E.letter c = none then (read rest).map (fun r => (c :: r.1, r.2))
    else none

theorem read_quote (tail : List α) : E.read (E.quote :: tail) = some ([], tail) := by
  rw [read.eq_def]
  simp

theorem read_letter (h : E.letter c = some l) (rest : List α) :
    E.read (E.mark :: l :: rest) = (E.read rest).map (fun r => (c :: r.1, r.2)) := by
  rw [read.eq_def]
  simp [E.distinct, E.back_letter c l h]

theorem read_char (h : E.letter c = none) (rest : List α) :
    E.read (c :: rest) = (E.read rest).map (fun r => (c :: r.1, r.2)) := by
  have hquote : c ≠ E.quote := by
    rintro rfl
    exact E.quote_escaped h
  have hmark : c ≠ E.mark := by
    rintro rfl
    exact E.mark_escaped h
  rw [read.eq_def]
  simp [hquote, hmark, h]

/-- What is escaped is read back up to the quote that closes it, whatever comes after. -/
theorem read_escape (s tail : List α) :
    E.read (E.escape s ++ E.quote :: tail) = some (s, tail) := by
  induction s with
  | nil => exact E.read_quote tail
  | cons c s ih =>
    have hsplit : E.escape (c :: s) ++ E.quote :: tail =
        E.escapeChar c ++ (E.escape s ++ E.quote :: tail) := by
      simp [escape]
    rw [hsplit]
    cases hc : E.letter c with
    | some l => simp [escapeChar, hc, E.read_letter hc, ih]
    | none => simp [escapeChar, hc, E.read_char hc, ih]

end Escaping
