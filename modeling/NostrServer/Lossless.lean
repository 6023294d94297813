import NostrServer.Exchange
import NostrServer.ReferenceServer

namespace NostrServer
open Docdb

structure Subscription.Complete (sub : Subscription) : Prop where
  unlimited : Session.reqLimit sub.filters = none
  restricted : ∀ f ∈ sub.filters, f.unrestricted = false

namespace Exchange
variable {rl : Relay} {x y : Exchange rl} {sub : Subscription}

/-- The event is between its writer's put and `filter_event`. -/
def Pending (x : Exchange rl) (ev : Event) : Prop :=
  (∃ w ∈ x.writing, w.1 = ev) ∨ (∃ v ∈ x.app.published.drop x.heard, v.1 = ev) ∨
  x.listener = some ev

/-- The peer has heard of everything that was published. -/
def Drained (x : Exchange rl) : Prop := x.app.published.length ≤ x.heard ∧ x.listener = none

/-- The event was sent under the subscription's name after its REQ came. -/
def Sent (x : Exchange rl) (sub : Subscription) (ev : Event) : Prop :=
  ∃ karma, .event sub.subid ev karma ∈ x.out.drop sub.opened

def Stored (x : Exchange rl) (i : DocID) (ev : Event) : Prop := (i, .event ev) ∈ x.app.records

/-- A query finds every stored event that passes its request. -/
def FindsAll (x : Exchange rl) (action : Action) : Prop :=
  action = .query → ∀ sub, x.request = .asked sub → ∀ i ev, x.Stored i ev →
    sub.passes rl.ext.hasher ev = true →
    rl.engine.sets.Contains (rl.engine.findInIndex x.app.records sub.filters) i

/-- What passes the subscription was sent, is on its way, or is among the documents left. -/
structure Served (x : Exchange rl) (sub : Subscription) (left : List DocID) : Prop where
  opened : sub.opened ≤ x.out.length
  covered : ∀ i ev, x.Stored i ev → sub.passes rl.ext.hasher ev = true →
    x.Pending ev ∨ x.Sent sub ev ∨ i ∈ left

structure Lossless (x : Exchange rl) : Prop where
  heard : x.heard ≤ x.app.published.length
  subscribed : ∀ sub ∈ x.subscriptions, sub.Complete → x.Served sub []
  asked : ∀ sub, x.request = .asked sub → sub.opened ≤ x.out.length
  sending : ∀ sub limit cds, x.request = .sending sub limit cds → sub.Complete → limit = none ∧
    x.Served sub cds

theorem Sent.later (h : x.Sent sub ev) (hout : y.out = x.out ++ more) : y.Sent sub ev := by
  obtain ⟨karma, hm⟩ := h
  refine ⟨karma, ?_⟩
  rw [hout, List.drop_append]
  exact List.mem_append_left _ hm

theorem sent_now (ho : sub.opened ≤ x.out.length) (hout : y.out = x.out ++ more)
    (hm : .event sub.subid ev karma ∈ more) : y.Sent sub ev := by
  refine ⟨karma, ?_⟩
  rw [hout, List.drop_append_of_le_length ho]
  exact List.mem_append_right _ hm

/-- A step that stores nothing but what is on its way then, and loses nothing of that. -/
structure Onward (x y : Exchange rl) : Prop where
  stored : ∀ i ev, y.Stored i ev → x.Stored i ev ∨ y.Pending ev
  pending : ∀ ev, x.Pending ev → y.Pending ev
  out : ∃ more, y.out = x.out ++ more

theorem Onward.served (o : Onward x y) (h : x.Served sub left) : y.Served sub left := by
  obtain ⟨more, hout⟩ := o.out
  refine ⟨?_, fun i ev hs hp => ?_⟩
  · rw [hout, List.length_append]
    exact Nat.le_add_right_of_le h.opened
  · rcases o.stored i ev hs with hs | hpend
    · rcases h.covered i ev hs hp with hpend | hsent | hleft
      · exact Or.inl (o.pending ev hpend)
      · exact Or.inr (Or.inl (hsent.later hout))
      · exact Or.inr (Or.inr hleft)
    · exact Or.inl hpend

/-- Writers and the listener's queue go on without the peer's lock. -/
theorem Lossless.onward (h : x.Lossless) (o : Onward x y)
    (hheard : y.heard ≤ y.app.published.length) (hsubs : y.subscriptions = x.subscriptions)
    (hreq : y.request = x.request) : y.Lossless := by
  obtain ⟨more, hout⟩ := o.out
  refine ⟨hheard, fun sub hs hc => ?_, fun sub hr => ?_, fun sub limit cds hr hc => ?_⟩
  · exact o.served (h.subscribed sub (hsubs ▸ hs) hc)
  · rw [hout, List.length_append]
    exact Nat.le_add_right_of_le (h.asked sub (hreq ▸ hr))
  · obtain ⟨hl, hs⟩ := h.sending sub limit cds (hreq ▸ hr) hc
    exact ⟨hl, o.served hs⟩

/-- A step of the peer that leaves the storage and the writers alone. -/
theorem onward_of_out (happ : y.app = x.app) (hw : y.writing = x.writing) (hh : y.heard = x.heard)
    (hl : y.listener = x.listener) (hout : y.out = x.out ++ more) : Onward x y := by
  refine ⟨fun i ev hs => Or.inl ?_, fun ev hp => ?_, more, hout⟩
  · simpa [Stored, happ] using hs
  · simpa [Pending, happ, hw, hh, hl] using hp

theorem commitBatch_stored {mem : Nat → IndexMemory} {ev : Event} {ops : List Session.BatchOp}
    {a a' : App rl} (h : Session.commitBatch mem ev a ops = some a') : a'.published = a.published ∧
      ∀ r ∈ a'.records, r ∈ a.records ∨ r.2 = .event ev := by
  induction ops generalizing a with
  | nil =>
    simp only [Session.commitBatch, Option.some.injEq] at h
    exact h ▸ ⟨rfl, fun r hr => Or.inl hr⟩
  | cons op ops ih =>
    cases op with
    | put old =>
      obtain ⟨a₁, hp, hrest⟩ := Option.bind_eq_some_iff.mp h
      obtain ⟨id, w, hpub⟩ := App.put_wrote hp
      obtain ⟨hpub', hm⟩ := ih hrest
      refine ⟨hpub'.trans hpub, fun r hr => ?_⟩
      rcases hm r hr with hr | he
      · rcases (w.mem r).mp hr with rfl | ⟨hr, _⟩
        · exact Or.inr rfl
        · exact Or.inl hr
      · exact Or.inr he
    | erase i =>
      obtain ⟨l, hpub⟩ := App.erase_lost a (mem ops.length) i
      obtain ⟨hpub', hm⟩ := ih h
      refine ⟨hpub'.trans hpub, fun r hr => ?_⟩
      rcases hm r hr with hr | he
      · exact Or.inl ((l.mem r).mp hr).1
      · exact Or.inr he

/-- The only event a commit stores is the one its writer will publish. -/
theorem commit_stored {w : Write} {a a' : App rl} (h : w.commit a = some a') :
    a'.published = a.published ∧
    ∀ i ev, (i, .event ev) ∈ a'.records → (i, .event ev) ∈ a.records ∨ ev = w.event := by
  cases w with
  | publish mem ev old =>
    obtain ⟨id, w, hpub⟩ := App.put_wrote h
    refine ⟨hpub, fun i e hm => ?_⟩
    rcases (w.mem _).mp hm with he | ⟨hm, _⟩
    · cases he
      exact Or.inr rfl
    · exact Or.inl hm
  | file mem mem' ev old attach attOld =>
    obtain ⟨a₁, hp, hp'⟩ := Option.bind_eq_some_iff.mp h
    obtain ⟨id, w, hpub⟩ := App.put_wrote hp
    obtain ⟨id', w', hpub'⟩ := App.put_wrote hp'
    refine ⟨hpub'.trans hpub, fun i e hm => ?_⟩
    rcases (w'.mem _).mp hm with he | ⟨hm, _⟩
    · cases he
    · rcases (w.mem _).mp hm with he | ⟨hm, _⟩
      · cases he
        exact Or.inr rfl
      · exact Or.inl hm
  | deletion mem ev ops =>
    simp only [Write.commit] at h
    split at h
    · cases h
    · obtain ⟨hpub, hm⟩ := commitBatch_stored h
      refine ⟨hpub, fun i e he => ?_⟩
      rcases hm _ he with he | he
      · exact Or.inl he
      · cases he
        exact Or.inr rfl

theorem write_lossless (h : x.Lossless) (w : Write) (publisher : Option Nat) :
    (x.write w publisher).Lossless := by
  unfold write
  split
  · rename_i a hc
    obtain ⟨hpub, hm⟩ := commit_stored hc
    refine h.onward ⟨fun i ev hs => ?_, fun ev hp => ?_, [], (List.append_nil _).symm⟩ ?_ rfl rfl
    · rcases hm i ev hs with hs | rfl
      · exact Or.inl hs
      · exact Or.inr (Or.inl ⟨(w.event, publisher), by simp, rfl⟩)
    · rcases hp with ⟨v, hv, he⟩ | hq | hl
      · exact Or.inl ⟨v, List.mem_append_left _ hv, he⟩
      · exact Or.inr (Or.inl (by simpa [hpub] using hq))
      · exact Or.inr (Or.inr hl)
    · simpa [hpub] using h.heard
  · exact h

theorem publish_lossless (h : x.Lossless) (writer : Nat) : (x.publish writer).Lossless := by
  unfold publish
  split
  · rename_i w hw
    have hdrop : (x.app.publishEvent w.1 w.2).published.drop x.heard =
        x.app.published.drop x.heard ++ [w] :=
      List.drop_append_of_le_length h.heard
    refine h.onward ⟨fun i ev hs => Or.inl hs, fun ev hp => ?_,
      [], (List.append_nil _).symm⟩ ?_ rfl rfl
    · rcases hp with ⟨v, hv, he⟩ | ⟨v, hv, he⟩ | hl
      · by_cases hvw : v = w
        · exact Or.inr (Or.inl ⟨v, by rw [hdrop, hvw]; simp, he⟩)
        · obtain ⟨j, hj, hjv⟩ := List.mem_iff_getElem.mp hv
          refine Or.inl ⟨v, ?_, he⟩
          have hne : j ≠ writer := fun hjw => hvw (by
            rw [← hjw, List.getElem?_eq_getElem hj, hjv] at hw
            exact Option.some.inj hw)
          exact List.mem_eraseIdx_iff_getElem.mpr ⟨j, hj, hne, hjv⟩
      · exact Or.inr (Or.inl ⟨v, by rw [hdrop]; exact List.mem_append_left _ hv, he⟩)
      · exact Or.inr (Or.inr hl)
    · simpa [App.publishEvent] using Nat.le_succ_of_le h.heard
  · exact h

theorem erase_lossless (h : x.Lossless) (mem : IndexMemory) (i : DocID) :
    ({ x with app := x.app.erase mem i } : Exchange rl).Lossless := by
  obtain ⟨l, hpub⟩ := App.erase_lost x.app mem i
  refine h.onward ⟨fun j ev hs => Or.inl ((l.mem _).mp hs).1, fun ev hp => ?_,
    [], (List.append_nil _).symm⟩
    ?_ rfl rfl
  · simpa [Pending, hpub] using hp
  · simpa [hpub] using h.heard

theorem next_lossless (h : x.Lossless) : x.next.Lossless := by
  unfold next
  split
  · rename_i v hlis hv
    obtain ⟨hlt, hget⟩ := List.getElem?_eq_some_iff.mp hv
    refine h.onward ⟨fun i ev hs => Or.inl hs, fun ev hp => ?_,
      [], (List.append_nil _).symm⟩ hlt rfl rfl
    rcases hp with hw | ⟨u, hu, he⟩ | hl
    · exact Or.inl hw
    · rw [List.drop_eq_getElem_cons hlt, hget] at hu
      rcases List.mem_cons.mp hu with rfl | hu
      · exact Or.inr (Or.inr (congrArg some he))
      · exact Or.inr (Or.inl ⟨u, hu, he⟩)
    · rw [hlis] at hl
      cases hl
  · exact h

/-- What the listener had is sent to every subscription it passes. -/
theorem filterEvent_lossless (h : x.Lossless) : x.filterEvent.Lossless := by
  unfold filterEvent
  split
  · rename_i ev hreq hlis
    refine ⟨h.heard, fun sub hs hc => ?_, fun sub hr => ?_, fun sub limit cds hr => ?_⟩
    · have hserved := h.subscribed sub hs hc
      refine ⟨by simpa using Nat.le_add_right_of_le hserved.opened, fun i e hst hp => ?_⟩
      rcases hserved.covered i e hst hp with (hw | hq | hl) | hsent | hno
      · exact Or.inl (Or.inl hw)
      · exact Or.inl (Or.inr (Or.inl hq))
      · obtain rfl : ev = e := Option.some.inj (hlis.symm.trans hl)
        have hnow : Reply.event sub.subid ev
            none ∈ (x.subscriptions.filter (fun sub => sub.passes rl.ext.hasher ev)).map
            (fun sub => .event sub.subid ev none) :=
              List.mem_map.mpr ⟨sub, List.mem_filter.mpr ⟨hs, hp⟩, rfl⟩
        exact Or.inr (Or.inl (sent_now hserved.opened rfl hnow))
      · exact Or.inr (Or.inl (hsent.later rfl))
      · cases hno
    · rw [hreq] at hr
      cases hr
    · rw [hreq] at hr
      cases hr
  · exact h

theorem ask_lossless (h : x.Lossless) (subid : Str) (flts : List Filter) :
    (x.ask subid flts).Lossless := by
  unfold ask
  split
  · have o : Onward x { x with request := .asked ⟨subid, flts, x.out.length⟩ } :=
      onward_of_out rfl rfl rfl rfl (List.append_nil _).symm
    refine ⟨h.heard, fun sub hs hc => o.served (h.subscribed sub hs hc), fun sub hr => ?_,
      fun sub limit cds hr => ?_⟩
    · cases hr
      exact Nat.le_refl _
    · cases hr
  · exact h

theorem mem_candidates (hr : ∀ f ∈ flts, f.unrestricted = false)
    (hc : rl.engine.sets.Contains (rl.engine.findInIndex x.app.records flts) i) :
    i ∈ x.candidates flts := by
  have hlisted := rl.engine.findInIndex_lists x.app.records hr
  obtain ⟨v, hv⟩ := (Calculator.contains_iff_listed _ hlisted).mp hc
  simp only [candidates, hlisted, Bool.false_eq_true, ↓reduceIte]
  exact List.mem_map.mpr ⟨(i, v), (rl.engine.sort_perm _).mem_iff.mpr hv, rfl⟩

/-- The query is made under the lock, so what it finds is what is left to send. -/
theorem query_lossless (h : x.Lossless) (hf : x.FindsAll .query) : x.query.Lossless := by
  unfold query
  split
  · rename_i sub hreq
    have o : Onward x { x with
        request := .sending sub (Session.reqLimit sub.filters) (x.candidates sub.filters) } :=
      onward_of_out rfl rfl rfl rfl (List.append_nil _).symm
    refine ⟨h.heard, fun sub hs hc => o.served (h.subscribed sub hs hc), fun sub hr => ?_,
      fun sub limit cds hr hc => ?_⟩
    · cases hr
    · cases hr
      refine ⟨hc.unlimited, h.asked sub hreq, fun i ev hs hp => Or.inr (Or.inr ?_)⟩
      exact mem_candidates hc.restricted (hf rfl sub hreq i ev hs hp)
  · exact h

/-- The registration comes before the lock is given back. -/
theorem register_lossless (h : x.Lossless) (hsub : sub.Complete → x.Served sub []) :
    (x.register sub).Lossless := by
  have o : Onward x (x.register sub) := onward_of_out rfl rfl rfl rfl rfl
  refine ⟨h.heard, fun sub' hs hc => ?_, fun sub hr => ?_, fun sub limit cds hr => ?_⟩
  · rcases List.mem_append.mp hs with hs | hs
    · exact o.served (h.subscribed sub' hs hc)
    · obtain rfl := List.mem_singleton.mp hs
      exact o.served (hsub hc)
  · cases hr
  · cases hr

/-- A candidate is sent when it passes, and was none that mattered when it does not. -/
theorem consider_served (h : x.Served sub (cd :: cds)) (limit : Option Nat) (taken : Bool) :
    (x.consider sub limit cd cds taken).Served sub cds := by
  have passed {y : Exchange rl} (o : Onward x y)
      (hno : ∀ ev, x.app.find cd = some (.event ev) → sub.passes rl.ext.hasher ev = true →
        y.Sent sub ev) :
      y.Served sub cds := by
    have hs := o.served h
    refine ⟨hs.opened, fun i ev hst hp => ?_⟩
    rcases o.stored i ev hst with hst' | hpend
    · rcases hs.covered i ev hst hp with hpend | hsent | hleft
      · exact Or.inl hpend
      · exact Or.inr (Or.inl hsent)
      · rcases List.mem_cons.mp hleft with rfl | hleft
        · exact Or.inr (Or.inl (hno ev (App.find_iff.mpr hst') hp))
        · exact Or.inr (Or.inr hleft)
    · exact Or.inl hpend
  unfold consider
  split
  · rename_i ev hfind
    split
    · refine passed (onward_of_out rfl rfl rfl rfl rfl) (fun e he hp => ?_)
      cases hfind.symm.trans he
      exact sent_now h.opened rfl (List.mem_singleton_self _)
    · rename_i hno
      refine passed (onward_of_out rfl rfl rfl rfl (List.append_nil _).symm) (fun e he hp => ?_)
      cases hfind.symm.trans he
      exact absurd hp hno
  · rename_i hno
    exact passed (onward_of_out rfl rfl rfl rfl (List.append_nil _).symm)
      (fun e he _ => absurd he (hno e))

theorem consider_onward (x : Exchange rl) (sub : Subscription) (limit : Option Nat) (cd : DocID)
    (cds : List DocID) (taken : Bool) : let y := x.consider sub limit cd cds taken
    Onward x y ∧ y.app = x.app ∧ y.heard = x.heard ∧ y.subscriptions = x.subscriptions ∧
      (y.request = .idle ∨ ∃ l, y.request = .sending sub l cds ∧ (limit = none → l = none)) := by
  intro y
  simp only [y, consider]
  split
  · split
    · refine ⟨onward_of_out rfl rfl rfl rfl rfl, rfl, rfl, rfl, ?_⟩
      cases taken with
      | true => exact Or.inr ⟨limit.map (· - 1), rfl, fun hl => by simp [hl]⟩
      | false => exact Or.inl rfl
    · exact ⟨onward_of_out rfl rfl rfl rfl (List.append_nil _).symm, rfl, rfl, rfl,
        Or.inr ⟨limit, rfl, fun hl => hl⟩⟩
  · exact ⟨onward_of_out rfl rfl rfl rfl (List.append_nil _).symm, rfl, rfl, rfl,
      Or.inr ⟨limit, rfl, fun hl => hl⟩⟩

theorem proceed_lossless (h : x.Lossless) (taken : Bool) : (x.proceed taken).Lossless := by
  unfold proceed
  split
  · rename_i sub limit cd cds hreq
    have hsub := h.sending sub limit (cd :: cds) hreq
    split
    · rename_i hzero
      apply register_lossless h
      intro hc
      rw [(hsub hc).1] at hzero
      cases hzero
    · obtain ⟨o, happ, hheard, hsubs, hgoes⟩ := x.consider_onward sub limit cd cds taken
      refine ⟨by rw [happ, hheard]; exact h.heard, fun sub' hs hc => ?_, fun sub' hr => ?_,
        fun sub' l cds' hr hc => ?_⟩
      · exact o.served (h.subscribed sub' (hsubs ▸ hs) hc)
      · rcases hgoes with hi | ⟨l, hi, _⟩ <;> rw [hi] at hr <;> cases hr
      · rcases hgoes with hi | ⟨l', hi, hl⟩ <;> rw [hi] at hr <;> cases hr
        exact ⟨hl (hsub hc).1, consider_served (hsub hc).2 limit taken⟩
  · rename_i sub limit hreq
    exact register_lossless h (fun hc => (h.sending sub limit [] hreq hc).2)
  · exact h

theorem close_lossless (h : x.Lossless) (id : Str) : (x.close id).Lossless := by
  unfold close
  split
  · rename_i hreq
    have o : Onward x { x with
        subscriptions := x.subscriptions.filter (fun sub => sub.subid ≠ id) } :=
      onward_of_out rfl rfl rfl rfl (List.append_nil _).symm
    exact ⟨h.heard, fun sub hs hc => o.served (h.subscribed sub (List.mem_filter.mp hs).1 hc),
      fun sub hr => absurd (hreq.symm.trans hr) (fun he => (nomatch he)),
      fun sub limit cds hr => absurd (hreq.symm.trans hr) (fun he => (nomatch he))⟩
  · exact h

theorem step_lossless (h : x.Lossless) (action : Action) (hf : x.FindsAll action) :
    (x.step action).Lossless :=
  match action, hf with
  | .write w publisher, _ => write_lossless h w publisher
  | .publish writer, _ => publish_lossless h writer
  | .erase mem i, _ => erase_lossless h mem i
  | .next, _ => next_lossless h
  | .filterEvent, _ => filterEvent_lossless h
  | .ask subid flts, _ => ask_lossless h subid flts
  | .query, hf => query_lossless h hf
  | .proceed taken, _ => proceed_lossless h taken
  | .close id, _ => close_lossless h id

theorem connect_lossless (a : App rl) (writing : List (Event × Option Nat)) :
    (connect a writing).Lossless :=
  ⟨Nat.le_refl _, fun _ hs => (nomatch hs), fun _ hr => (nomatch hr), fun _ _ _ hr => (nomatch hr)⟩

/-- A request with a filter that asks for nothing has no stored event left to send. -/
def NothingLeft (x : Exchange rl) : Prop :=
  ∀ sub limit cds, x.request = .sending sub limit cds →
    (∃ f ∈ sub.filters, f.unrestricted = true) → cds = []

theorem NothingLeft.of_request (h : x.NothingLeft) (hreq : y.request = x.request) :
    y.NothingLeft := fun sub limit cds hr => h sub limit cds (hreq ▸ hr)

theorem query_nothingLeft (h : x.NothingLeft) : x.query.NothingLeft := by
  unfold query
  split
  · intro sub limit cds hr hcatch
    cases hr
    rw [← List.any_eq_true, ← rl.engine.findInIndex_inverted x.app.records] at hcatch
    simp only [candidates, hcatch, ↓reduceIte]
  · exact h

theorem proceed_nothingLeft (h : x.NothingLeft) (taken : Bool) : (x.proceed taken).NothingLeft := by
  unfold proceed
  split
  · rename_i sub limit cd cds hreq
    have hasks (hcatch : ∃ f ∈ sub.filters, f.unrestricted = true) : cds = [] :=
      absurd (h sub limit (cd :: cds) hreq hcatch) (List.cons_ne_nil cd cds)
    split
    · intro sub' limit' cds' hr
      cases hr
    · obtain ⟨-, -, -, -, hgoes⟩ := x.consider_onward sub limit cd cds taken
      intro sub' limit' cds' hr
      rcases hgoes with hi | ⟨l, hi, _⟩ <;> rw [hi] at hr <;> cases hr
      exact hasks
  · intro sub limit cds hr
    cases hr
  · exact h

theorem step_nothingLeft (h : x.NothingLeft) (action : Action) : (x.step action).NothingLeft := by
  cases action with
  | write w publisher => exact h.of_request (by simp only [step, write]; split <;> rfl)
  | publish writer => exact h.of_request (by simp only [step, publish]; split <;> rfl)
  | erase mem i => exact h.of_request rfl
  | next => exact h.of_request (by simp only [step, next]; split <;> rfl)
  | filterEvent => exact h.of_request (by simp only [step, filterEvent]; split <;> rfl)
  | ask subid flts =>
    simp only [step, ask]
    split
    · intro sub limit cds hr
      cases hr
    · exact h
  | query => exact query_nothingLeft h
  | proceed taken => exact proceed_nothingLeft h taken
  | close id => exact h.of_request (by simp only [step, close]; split <;> rfl)

/-- Then the request goes on to its EOSE. -/
theorem NothingLeft.answered (h : x.NothingLeft) (hreq : x.request = .sending sub limit cds)
    (hcatch : ∃ f ∈ sub.filters, f.unrestricted = true) (taken : Bool) :
    (x.proceed taken).out = x.out ++ [.eose sub.subid] := by
  obtain rfl := h sub limit cds hreq hcatch
  simp only [proceed, hreq, register]

/-- However the steps of the writers, of the listener and of the peer's requests fall
between each other: an event that stays in the storage and passes an open subscription
without limit is sent to it, once its writer has published it and the peer has heard of
everything. Each filter of the request must ask for something; a request with a filter that
does not is answered with the EOSE and no stored event. -/
theorem no_event_lost (a : App rl) (writing : List (Event × Option Nat)) (actions : List Action)
    (h : (machine (connect a writing)).Throughout FindsAll actions) :
    let x := (machine (connect a writing)).run actions
    (∀ sub ∈ x.subscriptions, Session.reqLimit sub.filters = none →
      (∀ f ∈ sub.filters, f.unrestricted = false) →
      x.Drained → ∀ i ev, x.Stored i ev → sub.passes rl.ext.hasher ev = true →
      (∀ w ∈ x.writing, w.1 ≠ ev) →
      x.Sent sub ev) ∧
    ∀ sub limit cds taken, x.request = .sending sub limit cds →
      (∃ f ∈ sub.filters, f.unrestricted = true) →
      (x.step (.proceed taken)).out = x.out ++ [.eose sub.subid] := by
  refine ⟨fun sub hs hl hr hd i ev hst hp hw => ?_, fun sub limit cds taken hreq hcatch => ?_⟩
  · have hx : ((machine (connect a writing)).run actions).Lossless :=
      Machine.run_invariant (connect_lossless a writing)
        (fun x action hx hf => step_lossless hx action hf) h
    rcases (hx.subscribed sub hs ⟨hl, hr⟩).covered i ev hst hp with
      (⟨w, hm, he⟩ | ⟨v, hv, _⟩ | hlis) | hsent | hno
    · exact absurd he (hw w hm)
    · rw [List.drop_eq_nil_of_le hd.1] at hv
      cases hv
    · rw [hd.2] at hlis
      cases hlis
    · exact hsent
    · cases hno
  · have hx : ((machine (connect a writing)).run actions).NothingLeft :=
      Machine.run_always (P := NothingLeft) (fun sub limit cds hr => by cases hr)
        (fun x action hx => step_nothingLeft hx action) actions
    exact hx.answered hreq hcatch taken

def noteHeld : App silentRelay := { storage := (holdingTwo note laterNote).without [2] }

def asked (f : Filter) : List Action := [.ask (str "q") [f], .query]

theorem asked_findsAll (f : Filter)
    (h : silentRelay.engine.sets.Contains (silentRelay.engine.findInIndex noteHeld.records [f]) 1) :
    (machine (connect noteHeld [])).Throughout FindsAll (asked f) := by
  refine Machine.Throughout.snoc (Machine.throughout_nil.snoc (fun he => absurd he (by simp))) ?_
  rintro - sub hs i ev hi -
  cases hs
  have hrecords : noteHeld.records = [(1, .event note)] := rfl
  have hi : (i, EventOrAttachment.event ev) ∈ noteHeld.records := hi
  rw [hrecords, List.mem_singleton] at hi
  cases (Prod.mk.inj hi).1
  exact h

theorem findsAll_append {start : Exchange rl} (h : (machine start).Throughout FindsAll pre)
    (hr : ∀ action ∈ rest, action ≠ .query) :
    (machine start).Throughout FindsAll (pre ++ rest) := by
  induction rest using List.reverseRecOn with
  | nil => simpa using h
  | append_singleton rest action ih =>
    rw [← List.append_assoc]
    exact (ih (fun a ha => hr a (by simp [ha]))).snoc (fun he => absurd he (hr action (by simp)))

/-- A filter that asks for nothing finds everything, as the complement of nothing, and
nothing of it is sent. -/
theorem catch_all_sends_nothing : ¬ ∀ actions : List Action,
    (machine (connect noteHeld [])).Throughout FindsAll actions →
    let x := (machine (connect noteHeld [])).run actions
    ∀ sub ∈ x.subscriptions, Session.reqLimit sub.filters = none → x.Drained → ∀ i ev,
      x.Stored i ev →
      sub.passes silentRelay.ext.hasher ev = true → (∀ w ∈ x.writing, w.1 ≠ ev) →
      x.Sent sub ev := by
  intro h
  have hfinds : (machine (connect noteHeld [])).Throughout FindsAll (asked {} ++ [.proceed true]) :=
    findsAll_append (asked_findsAll {} (by
      have hinv : silentRelay.engine.sets.inverted (silentRelay.engine.findInIndex
          noteHeld.records [{}]) = true := by
        decide +kernel
      have hitems : silentRelay.engine.sets.items (silentRelay.engine.findInIndex
          noteHeld.records [{}]) = [] := by
        decide +kernel
      simp [Calculator.Contains, hinv, hitems, Listed])) (by simp)
  have hsubs : ((machine (connect noteHeld [])).run (asked {} ++ [.proceed true])).subscriptions =
      [⟨str "q", [{}], 0⟩] := by decide +kernel
  have hout : ((machine (connect noteHeld [])).run (asked {} ++ [.proceed true])).out =
      [.eose (str "q")] := by
    decide +kernel
  have hpass : Subscription.passes silentRelay.ext.hasher ⟨str "q", [{}], 0⟩ note = true := by
    decide +kernel
  obtain ⟨karma, hsent⟩ :=
    h _ hfinds _ (hsubs ▸ List.mem_singleton_self _) rfl ⟨Nat.le_refl _, rfl⟩ 1 note
    (List.mem_singleton_self _) hpass (fun w hw => absurd hw List.not_mem_nil)
  rw [hout] at hsent
  simp at hsent

/-- A note that is put and published while a request is answered is sent after it. -/
theorem note_sent_live :
    let actions : List Action :=
  asked { kinds := [1] } ++ [.write (.publish .zeros laterNote 0) none, .proceed true, .publish 0,
  .next, .proceed true, .filterEvent]
    ((machine (connect noteHeld [])).run actions).Sent ⟨str "q", [{ kinds := [1] }], 0⟩
      laterNote := by
  intro actions
  have hlisted : silentRelay.engine.sets.Contains
      (silentRelay.engine.findInIndex noteHeld.records [{ kinds := [1] }]) 1 := by
    have hitems : (silentRelay.engine.sets.items
        (silentRelay.engine.findInIndex noteHeld.records [{ kinds := [1] }])).map Prod.fst =
          [1] := by decide +kernel
    refine (Calculator.contains_iff_listed _ (by decide +kernel)).mpr ?_
    obtain ⟨⟨i, v⟩, hv, rfl⟩ := List.mem_map.mp (hitems ▸ List.mem_singleton_self 1)
    exact ⟨v, hv⟩
  have hfinds : (machine (connect noteHeld [])).Throughout FindsAll actions :=
    findsAll_append (asked_findsAll _ hlisted) (by simp)
  have hsubs : ((machine (connect noteHeld [])).run actions).subscriptions =
      [⟨str "q", [{ kinds := [1] }], 0⟩] := by
    decide +kernel
  have hrecords : ((machine (connect noteHeld [])).run actions).app.records =
      [(3, .event laterNote), (1, .event note)] := by decide +kernel
  have hwriting : ((machine (connect noteHeld [])).run actions).writing = [] := by decide +kernel
  refine (no_event_lost noteHeld [] actions hfinds).1 _ (hsubs ▸ List.mem_singleton_self _) rfl
    (by decide +kernel)
    ⟨by decide +kernel, by decide +kernel⟩ 3 laterNote ?_ (by decide +kernel) (by simp [hwriting])
  rw [Stored, hrecords]
  exact List.mem_cons_self

end Exchange

end NostrServer
