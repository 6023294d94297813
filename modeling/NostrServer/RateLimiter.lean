import Mathlib.Algebra.Order.Group.Int
import NostrServer.Peer
import NostrServer.Lib.SlidingWindow

namespace NostrServer
open SlidingWindow

def beginWindow (window : Nat) (pt : Int) : Int := pt - window * 1000000000

theorem beginWindow_mono (window : Nat) {a b : Int} (h : a ≤ b) :
    beginWindow window a ≤ beginWindow window b :=
  Int.sub_le_sub_right h _

/-- With a window, `test_and_add` is admission by it. -/
theorem testAndAdd_admission (hw : 0 < window) (limit : Nat) (q : List Int) (pt : Int) :
    testAndAdd window limit q pt = admission (beginWindow window) limit q pt := by
  have hne : window ≠ 0 := Nat.pos_iff_ne_zero.mp hw
  simp only [testAndAdd, hne, ↓reduceIte, ge_iff_le]
  rfl

/-- A limiter from its construction on: its queue, and the calls with what they returned. -/
def rateLimiter (window limit : Nat) : Machine (Calls Int) Int where
  start := {}
  step s pt :=
    let (ok, q) := testAndAdd window limit s.queue pt
    ⟨q, s.answered ++ [(pt, ok)]⟩

theorem rateLimiter_calls (hw : 0 < window) (limit : Nat) :
    rateLimiter window limit = calls (beginWindow window) limit := by
  have hstep : (rateLimiter window limit).step = (calls (beginWindow window) limit).step := by
    funext s pt
    simp only [rateLimiter, testAndAdd_admission hw]
    rfl
  exact congrArg (Machine.mk _) hstep

def acceptedWithin (from' until' : Int) (c : Int × Bool) : Bool :=
  c.2 && from' ≤ c.1 && c.1 ≤ until'

theorem countP_acceptedWithin (answered : List (Int × Bool)) (from' until' : Int) :
    answered.countP (acceptedWithin from' until') =
      (admitted answered).countP (fun t => from' ≤ t && t ≤ until') := by
  rw [admitted, List.countP_map, List.countP_filter]
  apply List.countP_congr
  intro c _
  simp [acceptedWithin, and_assoc, and_comm]

/-- The calls up to a position are those of the run up to it. -/
theorem answered_split (h : ((rateLimiter window limit).run times).answered =
    before ++ (t, ok) :: after) :
    ∃ pre post, times = pre ++ t :: post ∧ ((rateLimiter window limit).run pre).answered = before ∧
      ok = (testAndAdd window limit ((rateLimiter window limit).run pre).queue t).1 := by
  induction times using List.reverseRecOn generalizing after with
  | nil => exact absurd h.symm (by simp [rateLimiter, Machine.run])
  | append_singleton pre u ih =>
    rw [Machine.run_snoc] at h
    rcases List.eq_nil_or_concat after with rfl | ⟨after, c, rfl⟩
    · obtain ⟨hbefore, hlast⟩ := List.append_inj' h rfl
      simp only [List.cons.injEq, Prod.mk.injEq, and_true] at hlast
      obtain ⟨rfl, rfl⟩ := hlast
      exact ⟨pre, [], rfl, hbefore, rfl⟩
    · rw [List.concat_eq_append, ← List.cons_append, ← List.append_assoc] at h
      obtain ⟨pre', post, rfl, hbefore, hok⟩ := ih (List.append_inj' h rfl).1
      exact ⟨pre', post ++ [u], by simp, hbefore, hok⟩

/-- The limiter is an exact sliding window: calls in order of time return true while
fewer than the limit of earlier ones did in the window they close. -/
theorem rate_limiter_exact (window limit : Nat) (hw : 0 < window) (times : List Int)
    (hs : times.Pairwise (· ≤ ·)) :
    ((rateLimiter window limit).run times).answered.map Prod.fst = times ∧
    (∀ before t ok after, ((rateLimiter window limit).run times).answered =
      before ++ (t, ok) :: after →
      (ok = true ↔ before.countP (acceptedWithin (t - window * 1000000000) t) < limit)) ∧
    ∀ t, ((rateLimiter window limit).run times).answered.countP
      (acceptedWithin t (t + window * 1000000000)) ≤ limit := by
  refine ⟨?_, ?_, ?_⟩
  · rw [rateLimiter_calls hw]
    exact answered_times _ _ times
  · intro before t ok after h
    obtain ⟨pre, post, rfl, rfl, rfl⟩ := answered_split h
    have hpre : (pre ++ [t]).Pairwise (· ≤ ·) := hs.sublist (by simp)
    have hearlier : ∀ c ∈ ((rateLimiter window limit).run pre).answered, c.1 ≤ t := by
      intro c hc
      rw [rateLimiter_calls hw] at hc
      have hmem : c.1 ∈ pre :=
        answered_times (beginWindow window) limit pre ▸ List.mem_map_of_mem hc
      exact (List.pairwise_append.mp hpre).2.2 c.1 hmem t (List.mem_singleton_self t)
    rw [testAndAdd_admission hw, countP_acceptedWithin]
    rw [rateLimiter_calls hw] at hearlier ⊢
    rw [admission_iff (fun _ _ => beginWindow_mono window) hpre]
    refine iff_of_eq (congrArg (· < limit) (List.countP_congr (fun x hx => ?_)))
    obtain ⟨c, hc, rfl⟩ := List.mem_map.mp hx
    have hle := hearlier c (List.mem_of_mem_filter hc)
    simp only [beginWindow, hle, decide_true, Bool.and_true]
    exact decide_eq_true_iff.trans decide_eq_true_iff.symm
  · intro t
    rw [countP_acceptedWithin, rateLimiter_calls hw]
    exact window_count (fun _ _ => beginWindow_mono window) hs (by simp [beginWindow])

/-- Three calls, one second apart, to a limiter of two in ten seconds. -/
theorem rate_limiter_third : ((rateLimiter 10 2).run [0, 1000000000, 2000000000]).answered =
      [(0, true), (1000000000, true), (2000000000, false)] ∧
    ∀ t, ((rateLimiter 10 2).run [0, 1000000000, 2000000000]).answered.countP
      (acceptedWithin t (t + 10 * 1000000000)) ≤ 2 :=
  ⟨by decide, (rate_limiter_exact 10 2 (by decide) [0, 1000000000, 2000000000] (by decide)).2.2⟩

end NostrServer
