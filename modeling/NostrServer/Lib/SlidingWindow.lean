import Mathlib.Order.Lattice
import NostrServer.Lib.Runs

namespace SlidingWindow

/-- The queue, and the calls with their answers. -/
structure Calls (τ : Type) where
  queue : List τ := []
  answered : List (τ × Bool) := []

def admitted (answered : List (τ × Bool)) : List τ := (answered.filter Prod.snd).map Prod.fst

theorem admitted_snoc (answered : List (τ × Bool)) (t : τ) (ok : Bool) :
    admitted (answered ++ [(t, ok)]) = admitted answered ++ if ok then [t] else [] := by
  cases ok <;> simp [admitted]

variable {τ : Type} [LinearOrder τ] {opening : τ → τ} {limit : Nat}

def admission (opening : τ → τ) (limit : Nat) (q : List τ) (t : τ) : Bool × List τ :=
  let q := q.dropWhile (· < opening t)
  if limit ≤ q.length then (false, q) else (true, q ++ [t])

def call (opening : τ → τ) (limit : Nat) (s : Calls τ) (t : τ) : Calls τ :=
  ⟨(admission opening limit s.queue t).2,
    s.answered ++ [(t, (admission opening limit s.queue t).1)]⟩

def calls (opening : τ → τ) (limit : Nat) : Machine (Calls τ) τ := ⟨{}, call opening limit⟩

/-- Dropping the early times from the front of a queue in order drops all of them. -/
theorem dropWhile_early {q : List τ} (hq : q.Pairwise (· ≤ ·)) (from' : τ) :
    q.dropWhile (· < from') = q.filter (from' ≤ ·) := by
  induction q with
  | nil => rfl
  | cons a q ih =>
    rw [List.pairwise_cons] at hq
    by_cases ha : a < from'
    · simp only [List.dropWhile_cons, ha, decide_true, ↓reduceIte, ih hq.2, List.filter_cons,
        not_le.mpr ha, decide_false, Bool.false_eq_true]
    · have hall : ∀ b ∈ a :: q, decide (from' ≤ b) = true := by
        intro b hb
        rcases List.mem_cons.mp hb with rfl | hb
        · exact decide_eq_true (not_lt.mp ha)
        · exact decide_eq_true (le_trans (not_lt.mp ha) (hq.1 b hb))
      rw [List.filter_eq_self.mpr hall, List.dropWhile_cons, if_neg (by simpa using ha)]

theorem run_snoc (pre : List τ) (t : τ) : (calls opening limit).run (pre ++ [t]) =
    call opening limit ((calls opening limit).run pre) t := Machine.run_snoc _ pre t

theorem answered_times (opening : τ → τ) (limit : Nat) (times : List τ) :
    ((calls opening limit).run times).answered.map Prod.fst = times := by
  induction times using List.reverseRecOn with
  | nil => rfl
  | append_singleton pre t ih => rw [run_snoc, call, List.map_append, ih]; rfl

theorem admitted_sublist (times : List τ) :
    (admitted ((calls opening limit).run times).answered).Sublist times := by
  conv => rhs; rw [← answered_times opening limit times]
  exact List.filter_sublist.map Prod.fst

/-- Nothing is queued that was not admitted. -/
theorem queue_sublist (opening : τ → τ) (limit : Nat) (times : List τ) :
    ((calls opening limit).run times).queue.Sublist
    (admitted ((calls opening limit).run times).answered) := by
  induction times using List.reverseRecOn with
  | nil => exact List.Sublist.slnil
  | append_singleton pre t ih =>
    rw [run_snoc]
    have hq := (List.dropWhile_sublist (· < opening t)).trans ih
    simp only [call, admission, admitted_snoc]
    split
    · simpa using hq
    · exact hq.append (List.Sublist.refl _)

/-- The queue holds the admitted times that a later window can still see. -/
theorem queue_covers (limit : Nat) (hmono : Monotone opening) {times : List τ}
    (hs : times.Pairwise (· ≤ ·)) {n : τ} (hn : ∀ t ∈ times, t ≤ n) :
    ((calls opening limit).run times).queue.dropWhile (· < opening n) =
      (admitted ((calls opening limit).run times).answered).filter (opening n ≤ ·) := by
  rw [dropWhile_early (hs.sublist
    ((queue_sublist opening limit times).trans (admitted_sublist times)))]
  induction times using List.reverseRecOn generalizing n with
  | nil => rfl
  | append_singleton pre t ih =>
    obtain ⟨hpre, -, hlast⟩ := List.pairwise_append.mp hs
    have hle : ∀ x ∈ pre, x ≤ t := fun x hx => hlast x hx t (List.mem_singleton_self t)
    have hsorted := hpre.sublist ((queue_sublist opening limit pre).trans (admitted_sublist pre))
    have htn : opening t ≤ opening n := hmono (hn t (by simp))
    -- what the call leaves of the queue is seen from `n` as the admitted times before it are
    have hleft : (((calls opening limit).run pre).queue.dropWhile (· < opening t)).filter
        (opening n ≤ ·) =
        (admitted ((calls opening limit).run pre).answered).filter (opening n ≤ ·) := by
      rw [dropWhile_early hsorted, ih hpre hle, List.filter_filter]
      apply List.filter_congr
      intro x _
      by_cases h : opening n ≤ x
      · simp [h, le_trans htn h]
      · simp [h]
    rw [run_snoc]
    simp only [call, admission, admitted_snoc]
    split
    · simpa using hleft
    · simp only [↓reduceIte, List.filter_append, hleft]

/-- A call is admitted exactly when its window holds fewer admitted calls than the limit. -/
theorem admission_iff (hmono : Monotone opening) {pre : List τ}
    (hs : (pre ++ [t]).Pairwise (· ≤ ·)) :
    (admission opening limit ((calls opening limit).run pre).queue t).1 = true ↔
      (admitted ((calls opening limit).run pre).answered).countP (opening t ≤ ·) < limit := by
  obtain ⟨hpre, -, hlast⟩ := List.pairwise_append.mp hs
  have hq := queue_covers limit hmono hpre (fun x hx => hlast x hx t (List.mem_singleton_self t))
  rw [List.countP_eq_length_filter, ← hq]
  unfold admission
  dsimp only
  split
  · rename_i hfull
    simp [hfull]
  · rename_i hroom
    simpa using hroom

/-- No window that a call can look back on holds more admitted calls than the limit. -/
theorem window_count (hmono : Monotone opening) {times : List τ}
    (hs : times.Pairwise (· ≤ ·)) {a b : τ} (hab : opening b ≤ a) :
    (admitted ((calls opening limit).run times).answered).countP (fun x => a ≤ x && x ≤ b) ≤
      limit := by
  induction times using List.reverseRecOn with
  | nil => exact Nat.zero_le limit
  | append_singleton pre t ih =>
    have ih := ih (List.pairwise_append.mp hs).1
    rw [run_snoc]
    simp only [call, admitted_snoc]
    cases hok : (admission opening limit ((calls opening limit).run pre).queue t).1 with
    | false => simpa using ih
    | true =>
      simp only [↓reduceIte, List.countP_append, List.countP_singleton]
      by_cases ht : a ≤ t ∧ t ≤ b
      · -- what the window holds besides `t` was in sight of the call at `t`
        have hroom := (admission_iff hmono hs).mp hok
        have hseen : (admitted ((calls opening limit).run pre).answered).countP
            (fun x => a ≤ x && x ≤ b) ≤
            (admitted ((calls opening limit).run pre).answered).countP (opening t ≤ ·) := by
          apply List.countP_mono_left
          intro x _ hx
          simp only [Bool.and_eq_true, decide_eq_true_eq] at hx ⊢
          exact le_trans (le_trans (hmono ht.2) hab) hx.1
        simp only [ht, decide_true, Bool.and_self, ↓reduceIte]
        omega
      · have hout : (decide (a ≤ t) && decide (t ≤ b)) = false := by simpa using ht
        simp only [hout, Bool.false_eq_true, ↓reduceIte]
        exact ih

end SlidingWindow
