import NostrServer.Lossless

namespace NostrServer
open Docdb

/-- The event of a live message to a subscription. What a query sends carries a karma. -/
def Reply.live (subid : Str) : Reply → Option Event
  | .event s ev none => if s = subid then some ev else none
  | _ => none

namespace Exchange
variable {rl : Relay} {x y x₀ : Exchange rl} {sub : Subscription}

/-- How many of the published events `filter_event` has seen. -/
def filtered (x : Exchange rl) : Nat := if x.listener.isSome then x.heard - 1 else x.heard

structure Listening (x : Exchange rl) : Prop where
  heard : x.heard ≤ x.app.published.length
  listener : ∀ ev, x.listener = some ev →
    ∃ n v, x.heard = n + 1 ∧ x.app.published[n]? = some v ∧ v.1 = ev

/-- The request that is on, if any, has another id. -/
def Elsewhere (x : Exchange rl) (subid : Str) : Prop :=
  match x.request with
  | .idle => True
  | .asked sub => sub.subid ≠ subid
  | .sending sub _ _ => sub.subid ≠ subid

/-- The action neither asks for this id again nor closes it. -/
def Keeps (subid : Str) : Action → Prop
  | .ask id _ => id ≠ subid
  | .close id => id ≠ subid
  | _ => True

/-- From `x₀` to `x` the subscription was sent what was filtered in between and passes it. -/
structure Streamed (x₀ x : Exchange rl) (sub : Subscription) : Prop where
  only : x.subscriptions.filter (fun s => s.subid = sub.subid) = [sub]
  elsewhere : x.Elsewhere sub.subid
  since : x₀.filtered ≤ x.filtered
  out : ∃ more, x.out = x₀.out ++ more ∧ more.filterMap (Reply.live sub.subid) =
    (((x.app.published.take x.filtered).drop x₀.filtered).map Prod.fst).filter
      (sub.passes rl.ext.hasher)

/-- A step that filters nothing, and sends nothing live under the name. -/
theorem Streamed.aside (h : Streamed x₀ x sub) (hl : x.Listening)
    (honly : y.subscriptions.filter (fun s => s.subid = sub.subid) = [sub])
    (helsewhere : y.Elsewhere sub.subid) (hfiltered : y.filtered = x.filtered)
    (hpub : ∃ more, y.app.published = x.app.published ++ more)
    (hout : ∃ more, y.out = x.out ++ more ∧ more.filterMap (Reply.live sub.subid) = []) :
    Streamed x₀ y sub := by
  obtain ⟨new, hnew⟩ := hpub
  obtain ⟨more', hout', hnone⟩ := hout
  obtain ⟨more, hmore, hlive⟩ := h.out
  have hle : x.filtered ≤ x.app.published.length := by
    refine Nat.le_trans ?_ hl.heard
    unfold filtered
    split
    · exact Nat.sub_le _ _
    · exact Nat.le_refl _
  refine ⟨honly, helsewhere, by rw [hfiltered]; exact h.since, more ++ more', ?_, ?_⟩
  · rw [hout', hmore, List.append_assoc]
  · rw [List.filterMap_append, hnone, List.append_nil, hlive, hfiltered, hnew,
      List.take_append_of_le_length hle]

/-- An event goes out under a name once for each subscription of the name that it passes. -/
theorem live_sent (subs : List Subscription) (passes : Subscription → Bool) (subid : Str)
    (ev : Event) :
    ((subs.filter passes).map (fun s => Reply.event s.subid ev none)).filterMap
        (Reply.live subid) =
      ((subs.filter (fun s => s.subid = subid)).filter passes).map (fun _ => ev) := by
  induction subs with
  | nil => rfl
  | cons s subs ih =>
    by_cases hid : s.subid = subid <;> cases hp : passes s <;>
      simp [hid, hp, ih, Reply.live]

/-- The listener's event goes out to the subscription if it passes. -/
theorem filterEvent_streamed (h : Streamed x₀ x sub) (hl : x.Listening) :
    Streamed x₀ x.filterEvent sub := by
  unfold filterEvent
  split
  · rename_i ev hreq hlis
    obtain ⟨n, v, hheard, hv, rfl⟩ := hl.listener ev hlis
    obtain ⟨hlt, hget⟩ := List.getElem?_eq_some_iff.mp hv
    have hfiltered : x.filtered = n := by simp [filtered, hlis, hheard]
    have hsince : x₀.filtered ≤ n := hfiltered ▸ h.since
    obtain ⟨more, hmore, hlive⟩ := h.out
    let sent := (x.subscriptions.filter (fun s => s.passes rl.ext.hasher v.1)).map
      (fun s => Reply.event s.subid v.1 none)
    have hsent : sent.filterMap (Reply.live sub.subid) =
        [v.1].filter (sub.passes rl.ext.hasher) := by
      rw [live_sent, h.only]
      cases hp : sub.passes rl.ext.hasher v.1 <;> simp [hp]
    let after : Exchange rl := { x with listener := none, out := x.out ++ sent }
    have hafter : after.filtered = n + 1 := hheard
    have htake : x.app.published.take (n + 1) = x.app.published.take n ++ [v] := by
      rw [List.take_add_one, hv]
      rfl
    have hdrop : x₀.filtered ≤ (x.app.published.take n).length := by
      rw [List.length_take]
      omega
    refine ⟨h.only, by simp [Elsewhere, hreq], ?_, more ++ sent, ?_, ?_⟩
    · exact hafter ▸ Nat.le_succ_of_le hsince
    · rw [hmore, List.append_assoc]
    · rw [List.filterMap_append, hlive, hsent, hfiltered]
      change _ = (((x.app.published.take after.filtered).drop _).map Prod.fst).filter _
      rw [hafter, htake, List.drop_append_of_le_length hdrop, List.map_append, List.filter_append]
      rfl
  · exact h

/-- Nothing that is sent in the course of a request is live. -/
theorem proceed_streamed (h : Streamed x₀ x sub) (hl : x.Listening) (taken : Bool) :
    Streamed x₀ (x.proceed taken) sub := by
  have registered {asked : Subscription} (hne : asked.subid ≠ sub.subid) :
      Streamed x₀ (x.register asked) sub := by
    refine h.aside hl ?_ trivial rfl ⟨[], (List.append_nil _).symm⟩ ⟨_, rfl, rfl⟩
    simp [register, hne, h.only]
  have helsewhere := h.elsewhere
  unfold Elsewhere at helsewhere
  unfold proceed
  split
  · rename_i asked limit cd cds hreq
    rw [hreq] at helsewhere
    split
    · exact registered helsewhere
    · unfold consider
      split
      · split
        · refine h.aside hl h.only ?_ rfl ⟨[], (List.append_nil _).symm⟩ ⟨_, rfl, rfl⟩
          cases taken <;> simp [Elsewhere, helsewhere]
        · exact h.aside hl h.only helsewhere rfl ⟨[], (List.append_nil _).symm⟩
            ⟨[], (List.append_nil _).symm, rfl⟩
      · exact h.aside hl h.only helsewhere rfl ⟨[], (List.append_nil _).symm⟩
          ⟨[], (List.append_nil _).symm, rfl⟩
  · rename_i asked limit hreq
    rw [hreq] at helsewhere
    exact registered helsewhere
  · exact h

theorem step_streamed (h : Streamed x₀ x sub) (hl : x.Listening) (action : Action)
    (hk : Keeps sub.subid action) : Streamed x₀ (x.step action) sub := by
  have silent {y : Exchange rl} (hy : y.out = x.out) :
      ∃ more, y.out = x.out ++ more ∧ more.filterMap (Reply.live sub.subid) = [] :=
    ⟨[], by rw [hy, List.append_nil], rfl⟩
  have unpublished {y : Exchange rl} (hy : y.app.published = x.app.published) :
      ∃ more, y.app.published = x.app.published ++ more := ⟨[], by rw [hy, List.append_nil]⟩
  cases action with
  | write w publisher =>
    simp only [step, write]
    split
    · rename_i a hc
      exact h.aside hl h.only h.elsewhere rfl (unpublished (commit_stored hc).1) (silent rfl)
    · exact h
  | publish writer =>
    simp only [step, publish]
    split
    · exact h.aside hl h.only h.elsewhere rfl ⟨_, rfl⟩ (silent rfl)
    · exact h
  | erase mem i =>
    exact h.aside hl h.only h.elsewhere rfl
      (unpublished (App.erase_lost x.app mem i).2) (silent rfl)
  | next =>
    simp only [step, next]
    split
    · rename_i v hlis hv
      refine h.aside hl h.only h.elsewhere ?_ (unpublished rfl) (silent rfl)
      simp [filtered, hlis]
    · exact h
  | filterEvent => exact filterEvent_streamed h hl
  | ask subid flts =>
    simp only [step, ask]
    split
    · exact h.aside hl h.only hk rfl (unpublished rfl) (silent rfl)
    · exact h
  | query =>
    simp only [step, query]
    split
    · rename_i asked hreq
      have helsewhere := h.elsewhere
      simp only [Elsewhere, hreq] at helsewhere
      exact h.aside hl h.only helsewhere rfl (unpublished rfl) (silent rfl)
    · exact h
  | proceed taken => exact proceed_streamed h hl taken
  | close id =>
    simp only [step, close]
    split
    · refine h.aside hl ?_ h.elsewhere rfl (unpublished rfl) (silent rfl)
      have hid : id ≠ sub.subid := hk
      dsimp only
      rw [List.filter_filter, ← h.only]
      refine List.filter_congr (fun s _ => ?_)
      by_cases hs : s.subid = sub.subid
      · simp [hs, hid.symm]
      · simp [hs]
    · exact h

theorem step_listening (h : x.Listening) (action : Action) : (x.step action).Listening := by
  have same {y : Exchange rl} (hh : y.heard = x.heard) (hlis : y.listener = x.listener)
      (hpub : ∃ more, y.app.published = x.app.published ++ more) : y.Listening := by
    obtain ⟨more, hmore⟩ := hpub
    refine ⟨?_, fun ev he => ?_⟩
    · rw [hh, hmore, List.length_append]
      exact Nat.le_add_right_of_le h.heard
    · obtain ⟨n, v, hn, hv, rfl⟩ := h.listener ev (hlis ▸ he)
      refine ⟨n, v, hh.trans hn, ?_, rfl⟩
      rw [hmore, List.getElem?_append_left (List.getElem?_eq_some_iff.mp hv).1, hv]
  have unpublished {y : Exchange rl} (hy : y.app.published = x.app.published) :
      ∃ more, y.app.published = x.app.published ++ more := ⟨[], by rw [hy, List.append_nil]⟩
  cases action with
  | write w publisher =>
    simp only [step, write]
    split
    · rename_i a hc
      exact same rfl rfl (unpublished (commit_stored hc).1)
    · exact h
  | publish writer =>
    simp only [step, publish]
    split
    · exact same rfl rfl ⟨_, rfl⟩
    · exact h
  | erase mem i => exact same rfl rfl (unpublished (App.erase_lost x.app mem i).2)
  | next =>
    simp only [step, next]
    split
    · rename_i v hlis hv
      refine ⟨(List.getElem?_eq_some_iff.mp hv).1, fun ev he => ?_⟩
      cases he
      exact ⟨x.heard, v, rfl, hv, rfl⟩
    · exact h
  | filterEvent =>
    simp only [step, filterEvent]
    split
    · refine ⟨h.heard, fun ev he => ?_⟩
      cases he
    · exact h
  | ask subid flts =>
    simp only [step, ask]
    split
    · exact same rfl rfl (unpublished rfl)
    · exact h
  | query =>
    simp only [step, query]
    split
    · exact same rfl rfl (unpublished rfl)
    · exact h
  | proceed taken =>
    simp only [step, proceed]
    split
    · split
      · exact same rfl rfl (unpublished rfl)
      · unfold consider
        split
        · split <;> exact same rfl rfl (unpublished rfl)
        · exact same rfl rfl (unpublished rfl)
    · exact same rfl rfl (unpublished rfl)
    · exact h
  | close id =>
    simp only [step, close]
    split
    · exact same rfl rfl (unpublished rfl)
    · exact h

/-- However the steps of the writers, of the listener and of the peer's other requests fall
between each other: from the moment a subscription is there, as the only one of its name
and until it is asked for again or closed, it is sent live what is published and passes it,
each event once and in the order of the publisher. When the peer has heard of everything,
that is all that was published after what its listener had seen then. -/
theorem live_stream_exact (a : App rl) (writing : List (Event × Option Nat))
    (pre actions : List Action) (sub : Subscription)
    (hidle : ((machine (connect a writing)).run pre).request = .idle)
    (honly : ((machine (connect a writing)).run pre).subscriptions.filter
      (fun s => s.subid = sub.subid) = [sub])
    (hkeeps : ∀ action ∈ actions, Keeps sub.subid action) :
    let x₀ := (machine (connect a writing)).run pre
    let x := (machine (connect a writing)).run (pre ++ actions)
    ∃ more, x.out = x₀.out ++ more ∧
      more.filterMap (Reply.live sub.subid) =
        (((x.app.published.take x.filtered).drop x₀.filtered).map Prod.fst).filter
          (sub.passes rl.ext.hasher) ∧
      (x.Drained → more.filterMap (Reply.live sub.subid) =
        ((x.app.published.drop x₀.filtered).map Prod.fst).filter (sub.passes rl.ext.hasher)) := by
  intro x₀ x
  have hstart : (connect a writing).Listening := ⟨Nat.le_refl _, fun _ he => nomatch he⟩
  have hlistening (acts : List Action) : ((machine (connect a writing)).run acts).Listening :=
    Machine.run_always (m := machine (connect a writing)) (P := Listening) hstart
      (fun y action hy => step_listening hy action) acts
  have hstreamed : Streamed x₀ x sub := by
    induction actions using List.reverseRecOn with
    | nil =>
      have hx : x = x₀ := congrArg _ (List.append_nil pre)
      rw [hx]
      refine ⟨honly, ?_, Nat.le_refl _, [], (List.append_nil _).symm, ?_⟩
      · have hreq : x₀.request = .idle := hidle
        simp [Elsewhere, hreq]
      · have hnone : (x₀.app.published.take x₀.filtered).drop x₀.filtered = [] :=
          List.drop_eq_nil_of_le (List.length_take_le _ _)
        rw [hnone]
        rfl
    | append_singleton acts action ih =>
      have hbefore := ih (fun b hb => hkeeps b (by simp [hb]))
      have hx : x = ((machine (connect a writing)).run (pre ++ acts)).step action := by
        change (machine (connect a writing)).run (pre ++ (acts ++ [action])) = _
        rw [← List.append_assoc]
        exact Machine.run_snoc _ _ _
      rw [hx]
      exact step_streamed hbefore (hlistening _) action (hkeeps action (by simp))
  obtain ⟨more, hout, hlive⟩ := hstreamed.out
  refine ⟨more, hout, hlive, fun hdrained => ?_⟩
  have hall : x.app.published.take x.filtered = x.app.published := by
    apply List.take_of_length_le
    simpa [filtered, hdrained.2] using hdrained.1
  rw [hlive, hall]

def answered : List Action := asked { kinds := [1] } ++ [.proceed true, .proceed true]

def noteComes : List Action :=
  [.write (.publish .zeros laterNote 0) none, .publish 0, .next, .filterEvent]

theorem later_note_streamed :
    ∃ more, ((machine (connect noteHeld [])).run (answered ++ noteComes)).out =
        ((machine (connect noteHeld [])).run answered).out ++ more ∧
      more.filterMap (Reply.live (str "q")) = [laterNote] := by
  obtain ⟨more, hout, -, hlive⟩ := live_stream_exact noteHeld [] answered noteComes
    ⟨str "q", [{ kinds := [1] }], 0⟩ rfl (by decide +kernel) (by simp [noteComes, Keeps])
  refine ⟨more, hout, (hlive ⟨by decide +kernel, by decide +kernel⟩).trans ?_⟩
  decide +kernel

end Exchange

end NostrServer
