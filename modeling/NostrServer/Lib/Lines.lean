namespace Lines
variable {α : Type} [BEq α] [LawfulBEq α] {stop : α}

theorem splitOn_flatten {lines : List (List α)} (h : ∀ l ∈ lines, stop ∉ l) :
    ((lines.map (· ++ [stop])).flatten).splitOn stop = lines ++ [[]] := by
  induction lines with
  | nil => exact List.splitOn_eq_singleton List.not_mem_nil
  | cons line lines ih =>
    obtain ⟨hline, hlines⟩ := List.forall_mem_cons.mp h
    rw [List.map_cons, List.flatten_cons, List.append_assoc, List.singleton_append,
      List.splitOn_append_cons_self_of_not_mem hline, ih hlines]
    rfl

/-- The lines before an empty last piece are there however the text goes on. -/
theorem splitOn_append {xs : List α} (ys : List α) (h : xs.splitOn stop = lines ++ [[]]) :
    (xs ++ ys).splitOn stop = lines ++ ys.splitOn stop := by
  induction xs generalizing lines with
  | nil =>
    have hnone : lines = [] := by
      rw [List.splitOn_eq_singleton List.not_mem_nil] at h
      exact (List.append_cancel_right (h : [] ++ [[]] = lines ++ [[]])).symm
    rw [hnone]
    rfl
  | cons x xs ih =>
    rw [List.splitOn_cons_eq_if_modifyHead] at h
    rw [List.cons_append, List.splitOn_cons_eq_if_modifyHead]
    split at h
    · rename_i hx
      rw [if_pos hx]
      cases lines with
      | nil => exact absurd (List.cons.inj h).2 (List.splitOn_ne_nil _ _)
      | cons line lines =>
        obtain ⟨rfl, hrest⟩ := List.cons.inj h
        rw [ih hrest, List.cons_append]
    · rename_i hx
      rw [if_neg hx]
      obtain ⟨first, rest, hfirst⟩ := List.exists_cons_of_ne_nil (List.splitOn_ne_nil stop xs)
      rw [hfirst, List.modifyHead_cons] at h
      cases lines with
      | nil => cases (List.cons.inj h).1
      | cons line lines =>
        obtain ⟨rfl, rfl⟩ := List.cons.inj h
        have hxs : xs.splitOn stop = (first :: lines) ++ [[]] := hfirst
        rw [ih hxs]
        rfl

end Lines
