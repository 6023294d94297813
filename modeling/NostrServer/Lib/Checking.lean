import Mathlib.Data.Set.Function

namespace Checking
variable {σ α : Type} {step : σ → α → σ} {states : Set σ}

theorem foldl_mem (hstep : ∀ s ∈ states, ∀ v, step s v ∈ states) {s : σ} (hs : s ∈ states)
    (l : List α) : l.foldl step s ∈ states := by
  induction l generalizing s with
  | nil => exact hs
  | cons v l ih => exact ih (hstep s hs v)

theorem foldl_injOn (hstep : ∀ s ∈ states, ∀ v, step s v ∈ states)
    (hinj : ∀ v, Set.InjOn (fun s => step s v) states) (l : List α) :
    Set.InjOn (fun s => l.foldl step s) states := by
  induction l with
  | nil => exact fun s _ t _ h => h
  | cons v l ih =>
    intro s hs t ht h
    exact hinj v hs ht (ih (hstep s hs v) (hstep t ht v) h)

/-- Words that differ in a window only have windows that the check tells apart. -/
theorem window_told_apart (hstep : ∀ s ∈ states, ∀ v, step s v ∈ states)
    (hinj : ∀ v, Set.InjOn (fun s => step s v) states) {s : σ} (hs : s ∈ states)
    {before w w' after : List α}
    (hwindow : ∀ t ∈ states, w.foldl step t = w'.foldl step t → w = w')
    (h : (before ++ w ++ after).foldl step s = (before ++ w' ++ after).foldl step s) : w = w' := by
  have hbefore := foldl_mem hstep hs before
  apply hwindow _ hbefore
  apply foldl_injOn hstep hinj after (foldl_mem hstep hbefore w) (foldl_mem hstep hbefore w')
  simpa only [List.foldl_append] using h

end Checking
