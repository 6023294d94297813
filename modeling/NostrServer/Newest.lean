import NostrServer.Lib.Cutoff
import NostrServer.Values

namespace NostrServer
open Docdb Cutoff

variable {rl : Relay}

def upTo {α : Type} : Option Nat → List α → List α
  | none, l => l
  | some n, l => l.take n

theorem upTo_cons {α : Type} {limit : Option Nat} (h : limit ≠ some 0) (x : α) (l : List α) :
    upTo limit (x :: l) = x :: upTo (limit.map (· - 1)) l := by
  cases limit with
  | none => rfl
  | some n =>
    cases n with
    | zero => exact absurd rfl h
    | succ n => rfl

/-- What gets out over a stream that may end, the first thing not taken being the last. -/
def streamed {α : Type} (takes : Nat → Bool) : Nat → List α → List α × Bool
  | _, [] => ([], true)
  | n, x :: l =>
    if takes n then (x :: (streamed takes (n + 1) l).1, (streamed takes (n + 1) l).2)
    else ([x], false)

theorem streamed_isPrefix {α : Type} (takes : Nat → Bool) (n : Nat) (l : List α) :
    (streamed takes n l).1 <+: l := by
  induction l generalizing n with
  | nil => exact List.prefix_rfl
  | cons x l ih =>
    unfold streamed
    split
    · exact List.cons_prefix_cons.mpr ⟨rfl, ih _⟩
    · exact List.cons_prefix_cons.mpr ⟨rfl, List.nil_prefix⟩

/-- Over an open stream everything gets out. -/
theorem streamed_open {α : Type} {takes : Nat → Bool} (h : ∀ n, takes n = true) (n : Nat)
    (l : List α) : streamed takes n l = (l, true) := by
  induction l generalizing n with
  | nil => rfl
  | cons x l ih => rw [streamed, if_pos (h n), ih]

theorem upTo_isPrefix {α : Type} (limit : Option Nat) (l : List α) : upTo limit l <+: l := by
  cases limit with
  | none => exact List.prefix_rfl
  | some n => exact List.take_prefix n l

/-- What is within the limit is among what is taken. -/
theorem upTo_reaches {α : Type} {limit : Option Nat} {above : List α}
    (h : ∀ n, limit = some n → above.length < n) (x : α) (rest : List α) :
    ∃ more, upTo limit (above ++ x :: rest) = above ++ x :: more := by
  cases limit with
  | none => exact ⟨rest, rfl⟩
  | some n =>
    obtain ⟨k, hk⟩ := Nat.exists_eq_add_of_lt (h n rfl)
    refine ⟨rest.take k, ?_⟩
    have hn : n - above.length = k + 1 := by omega
    rw [upTo, List.take_append, List.take_of_length_le (by omega), hn, List.take_succ_cons]

/-- An order in which `std::sort` may leave the items: equal values stand anyhow. -/
structure SortedFrom (items order : Records OrderingItem) : Prop where
  perm : order.Perm items
  sorted : order.Pairwise (fun a b => ¬ orderingLt a.2 b.2)

def sentEvents (replies : List Reply) : List Event :=
  replies.filterMap (fun | .event _ ev _ => some ev | _ => none)

namespace App

def candidates (a : App rl) (fs : List Filter) : Records OrderingItem :=
  rl.engine.sets.items (rl.engine.findInIndex a.records fs)

def accepted (a : App rl) (fs : List Filter) (order : List DocID) : List Event :=
  order.filterMap (fun i => (a.find i).bind (fun d => d.event?.filter (matchedBy rl.ext.hasher fs)))

theorem accepted_cons_event {a : App rl} {i : DocID} (h : a.find i = some (.event ev))
    (fs : List Filter) (order : List DocID) :
    a.accepted fs (i :: order) =
      if matchedBy rl.ext.hasher fs ev = true then ev :: a.accepted fs order
        else a.accepted fs order := by
  unfold accepted
  rw [List.filterMap_cons, h]
  by_cases hm : matchedBy rl.ext.hasher fs ev = true
    <;> simp [EventOrAttachment.event?, Option.filter, hm]

theorem accepted_cons_other {a : App rl} {i : DocID} (h : ∀ ev, a.find i ≠ some (.event ev))
    (fs : List Filter) (order : List DocID) : a.accepted fs (i :: order) = a.accepted fs order := by
  unfold accepted
  rw [List.filterMap_cons]
  cases hf : a.find i with
  | none => simp
  | some d =>
    cases d with
    | event ev => exact absurd hf (h ev)
    | attachment att => simp [EventOrAttachment.event?]

/-- What is accepted comes between what is accepted before it and behind it. -/
theorem accepted_split {a : App rl} {fs : List Filter} {i : DocID} (h : a.find i = some (.event ev))
    (hm : matchedBy rl.ext.hasher fs ev = true) (above rest : List DocID) :
    a.accepted fs (above ++ i :: rest) = a.accepted fs above ++ ev :: a.accepted fs rest := by
  have hcons := accepted_cons_event h fs rest
  rw [if_pos hm] at hcons
  rw [← hcons, accepted, List.filterMap_append]
  rfl

theorem mem_accepted {a : App rl} {fs : List Filter} {order : List DocID} :
    ev ∈ a.accepted fs order ↔
      ∃ i ∈ order, (i, .event ev) ∈ a.records ∧ matchedBy rl.ext.hasher fs ev = true := by
  simp only [accepted, List.mem_filterMap, Option.bind_eq_some_iff, Option.filter_eq_some_iff]
  constructor
  · rintro ⟨i, hi, d, hd, he, hm⟩
    cases d with
    | event e =>
      cases he
      exact ⟨i, hi, find_iff.mp hd, hm⟩
    | attachment att => cases he
  · rintro ⟨i, hi, hd, hm⟩
    exact ⟨i, hi, _, find_iff.mpr hd, rfl, hm⟩

def eventReply (a : App rl) (subid : Str) (ev : Event) : Reply :=
  .event subid ev (some (a.getKarma ev.author))

theorem answer_streamed (a : App rl) (takes : Nat → Bool) (fs : List Filter) (subid : Str)
    (order : List DocID) (n : Nat) (limit : Option Nat) :
    Session.answer rl a takes fs subid n limit order =
      ((streamed takes n (upTo limit (a.accepted fs order))).1.map (a.eventReply subid),
        (streamed takes n (upTo limit (a.accepted fs order))).2) := by
  induction order generalizing n limit with
  | nil => cases limit <;> simp [Session.answer, accepted, upTo, streamed]
  | cons i order ih =>
    unfold Session.answer
    split
    · rename_i hnone
      simp [hnone, upTo, streamed]
    rename_i hsome
    split
    · rename_i ev hev
      rw [accepted_cons_event hev]
      by_cases hm : matchedBy rl.ext.hasher fs ev = true
      · rw [if_pos hm, upTo_cons hsome, streamed]
        simp only [matchedBy] at hm
        rw [if_pos hm]
        split
        · rw [ih]
          rfl
        · rfl
      · rw [if_neg hm]
        simp only [matchedBy] at hm
        rw [if_neg hm]
        exact ih n limit
    · rename_i hno
      rw [accepted_cons_other hno]
      exact ih n limit

/-- What a request may be answered with from the storage, over any stream and with any
order of equal candidates. -/
def MayAnswer (a : App rl) (fs : List Filter) (sent : List Reply) : Prop :=
  if rl.engine.sets.inverted (rl.engine.findInIndex a.records fs) then sent = []
  else ∃ order takes subid, SortedFrom (a.candidates fs) order ∧
    sent = (Session.answer rl a takes fs subid 0 (Session.reqLimit fs) (order.map Prod.fst)).1

theorem storedAnswer_mayAnswer (s : Session rl) (takes : Nat → Bool) (fs : List Filter)
    (subid : Str) :
    s.app.MayAnswer fs (s.storedAnswer takes fs subid).1 := by
  unfold MayAnswer Session.storedAnswer
  dsimp only
  split
  · rfl
  · exact ⟨_, takes, subid, ⟨rl.engine.sort_perm _, rl.engine.sort_sorted _⟩, rfl⟩

/-- Every answer to the request goes from newer to older, and what it leaves out of the
accepted candidates is no newer than what it sends. -/
def NewestFirst (a : App rl) (fs : List Filter) : Prop :=
  ∀ sent, a.MayAnswer fs sent →
    (sentEvents sent).Pairwise (fun x y => y.createdAt ≤ x.createdAt) ∧
    ∀ i e, (i, .event e) ∈ a.records → Listed (a.candidates fs) i →
      matchedBy rl.ext.hasher fs e = true →
      e ∉ sentEvents sent → ∀ x ∈ sentEvents sent, e.createdAt ≤ x.createdAt

end App

def narrowed (t : Int64) : UInt32 := (t - 946681200).toUInt64.toUInt32

/-- What an event is sorted by: the greater of its time and of the part of its author's key
that is taken for one, as far as the filters that find it read them. -/
def Engine.orderValue (en : Engine) (fs : List Filter) (ev : Event) : Nat :=
  max (if ∃ f ∈ fs, f.Finds en.ext ev ∧ f.ReadsTime ev then (narrowed ev.createdAt).toNat else 0)
    (if ∃ f ∈ fs, f.Finds en.ext ev ∧ f.ReadsKey ev
      then (narrowed (en.authorTime ev.author)).toNat else 0)

namespace App

def asked (a : App rl) (fs : List Filter) : List Event :=
  a.events.filter (fun ev => foundBy rl.ext fs ev && matchedBy rl.ext.hasher fs ev)

/-- Where an older event is within the limit, a newer one is sorted before it. A filter that
asks for nothing is not answered. -/
def TimesInOrder (a : App rl) (fs : List Filter) : Prop :=
  (∀ f ∈ fs, f.unrestricted = false) → ∀ e ∈ a.asked fs, ∀ e' ∈ a.asked fs,
    e.createdAt < e'.createdAt →
    Reached (rl.engine.orderValue fs) (Session.reqLimit fs) (a.asked fs) e →
      rl.engine.orderValue fs e < rl.engine.orderValue fs e'

end App

/-- Without a search text a candidate carries no relevance, and this for a time. -/
theorem Engine.findInIndex_orderValue (en : Engine) (st : Store en.ext) {id : DocID}
    {ev : Event} (hev : st.Has id ev) {fs : List Filter} (hs : ∀ f ∈ fs, f.ftSearch = [])
    (hasks : ∀ f ∈ fs, f.unrestricted = false) {v : OrderingItem}
    (h : (id, v) ∈ en.sets.items (en.findInIndex st.records fs)) :
    carried v = 0 ∧ dated v = en.orderValue fs ev := by
  have hcarried := en.findInIndex_greatest st hev carried_merge hasks
    (en.scores_searchToken st.records) h
  have hword (tk : WordToken) :
      Scores en.sets dated id (en.searchToken st.records tk) {0} := by
    refine .push (fun v hv => ?_)
    obtain ⟨row, -, he⟩ := List.mem_map.mp hv
    rw [← (Prod.mk.inj he).2]
    rfl
  have hdated := en.findInIndex_greatest st hev dated_merge hasks hword h
  constructor
  · obtain ⟨f, hf, -, ⟨hsearch, -⟩ | ⟨-, hzero⟩ | ⟨-, hzero⟩⟩ := hcarried.1
    · exact absurd (hs f hf) hsearch
    · exact hzero
    · exact hzero
  · apply Nat.le_antisymm
    · obtain ⟨f, hf, hfinds, ⟨hsearch, -⟩ | ⟨hreads, he⟩ | ⟨hreads, he⟩⟩ := hdated.1
      · exact absurd (hs f hf) hsearch
      · have htime : ∃ f ∈ fs, f.Finds en.ext ev ∧ f.ReadsTime ev := ⟨f, hf, hfinds, hreads⟩
        rw [orderValue, if_pos htime, he]
        exact Nat.le_max_left _ _
      · have hkey : ∃ f ∈ fs, f.Finds en.ext ev ∧ f.ReadsKey ev := ⟨f, hf, hfinds, hreads⟩
        rw [orderValue, if_pos hkey, he]
        exact Nat.le_max_right _ _
    · refine Nat.max_le.mpr ⟨?_, ?_⟩
      · split
        · rename_i hread
          obtain ⟨f, hf, hfinds, hreads⟩ := hread
          exact hdated.2 ⟨f, hf, hfinds, Or.inr (Or.inl ⟨hreads, rfl⟩)⟩
        · exact Nat.zero_le _
      · split
        · rename_i hread
          obtain ⟨f, hf, hfinds, hreads⟩ := hread
          exact hdated.2 ⟨f, hf, hfinds, Or.inr (Or.inr ⟨hreads, rfl⟩)⟩
        · exact Nat.zero_le _

namespace App

theorem mem_asked {a : App rl} {fs : List Filter} : ev ∈ a.asked fs ↔
    ev ∈ a.events ∧ foundBy rl.ext fs ev = true ∧ matchedBy rl.ext.hasher fs ev = true := by
  simp [asked]

theorem candidate_found {a : App rl} (hv : a.Valid) {fs : List Filter}
    (hasks : ∀ f ∈ fs, f.unrestricted = false) {i : DocID} :
    Listed (a.candidates fs) i ↔ ∃ ev, (i, .event ev) ∈ a.records ∧
      foundBy rl.ext fs ev = true := by
  have h : Listed (a.candidates fs) i ↔ _ := rl.engine.found_listed (a.store hv) hasks
  simp only [h, foundBy, List.any_eq_true, decide_eq_true_eq]
  exact Iff.rfl

theorem accepted_stored {a : App rl} {fs : List Filter} {i : DocID} {ev : Event}
    (h : (a.find i).bind (fun d => d.event?.filter (matchedBy rl.ext.hasher fs)) = some ev) :
    (i, .event ev) ∈ a.records := by
  have hin : ev ∈ a.accepted fs [i] := by simp [accepted, h]
  obtain ⟨j, hj, hst, -⟩ := mem_accepted.mp hin
  exact List.mem_singleton.mp hj ▸ hst

/-- Each event that is asked for is accepted once, in whatever order. -/
theorem accepted_perm {a : App rl} (hv : a.Valid) {fs : List Filter}
    (hasks : ∀ f ∈ fs, f.unrestricted = false) {order : Records OrderingItem}
    (horder : order.Perm (a.candidates fs)) :
    (a.accepted fs (order.map Prod.fst)).Perm (a.asked fs) := by
  have hnodup : (order.map Prod.fst).Nodup :=
    (horder.map Prod.fst).nodup_iff.mpr (rl.engine.sets.items_nodup _)
  refine (List.perm_ext_iff_of_nodup ?_ ((events_nodup hv).filter _)).mpr (fun ev => ?_)
  · refine List.pairwise_filterMap.mpr (hnodup.imp ?_)
    rintro i j hne x hx _ hy rfl
    exact hne (hv.same_event (accepted_stored hx) (accepted_stored hy) rfl).1
  · have hin (i : DocID) : i ∈ order.map Prod.fst ↔ ∃ ev, (i, .event ev) ∈ a.records ∧
        foundBy rl.ext fs ev = true := by
      rw [(horder.map Prod.fst).mem_iff, ← candidate_found hv hasks]
      simp [Listed]
    simp only [mem_accepted, hin]
    rw [← asked, mem_asked, mem_events]
    constructor
    · rintro ⟨i, ⟨ev', hi', hfound⟩, hi, hm⟩
      cases same_record a.ids_nodup hi hi' rfl
      exact ⟨⟨i, hi⟩, hfound, hm⟩
    · rintro ⟨⟨i, hi⟩, hfound, hm⟩
      exact ⟨i, ⟨ev, hi, hfound⟩, hi, hm⟩

theorem sentEvents_replies (a : App rl) (subid : Str) (evs : List Event) :
    sentEvents (evs.map (a.eventReply subid)) = evs := by
  induction evs with
  | nil => rfl
  | cons ev evs ih => exact congrArg (ev :: ·) ih

/-- Without a limit, over an open stream, all that is accepted is sent. -/
theorem answer_open (a : App rl) (fs : List Filter) (subid : Str) (order : List DocID)
    (limit : Option Nat) :
    sentEvents (Session.answer rl a (fun _ => true) fs subid 0 limit order).1 =
      upTo limit (a.accepted fs order) := by
  rw [answer_streamed, sentEvents_replies, streamed_open (fun _ => rfl)]

section
variable {a : App rl} {fs : List Filter} (hv : a.Valid) (hs : ∀ f ∈ fs, f.ftSearch = [])
  (hasks : ∀ f ∈ fs, f.unrestricted = false)
include hv hs hasks

/-- Candidates are sorted by the order values of their events. -/
theorem candidate_value {i : DocID} {v : OrderingItem} (hi : (i, .event ev) ∈ a.records)
    (hin : (i, v) ∈ a.candidates fs) : carried v = 0 ∧ dated v = rl.engine.orderValue fs ev :=
  rl.engine.findInIndex_orderValue (a.store hv) ((store_has hv).mpr hi) hs hasks hin

theorem sortedFrom_iff {order : Records OrderingItem} (horder : order.Perm (a.candidates fs)) :
    SortedFrom (a.candidates fs) order ↔ Ranked (fun r => dated r.2) order := by
  have hzero {r : DocID × OrderingItem} (hr : r ∈ order) : carried r.2 = 0 := by
    have hin := horder.mem_iff.mp hr
    obtain ⟨ev, hi, -⟩ := (candidate_found hv hasks).mp ⟨r.2, hin⟩
    exact (candidate_value hv hs hasks hi hin).1
  have hlt {r q : DocID × OrderingItem} (hr : r ∈ order) (hq : q ∈ order) :
      ¬ orderingLt r.2 q.2 ↔ ¬ dated r.2 < dated q.2 := by
    rw [orderingLt_iff, hzero hr, hzero hq]
    simp
  constructor
  · exact fun h => h.sorted.imp_of_mem (fun hr hq => (hlt hr hq).mp)
  · exact fun h => ⟨horder, h.imp_of_mem (fun hr hq => (hlt hr hq).mpr)⟩

theorem accepted_ranked {order : Records OrderingItem}
    (horder : order.Perm (a.candidates fs))
    (h : Ranked (fun r => dated r.2) order) :
    Ranked (rl.engine.orderValue fs) (a.accepted fs (order.map Prod.fst)) := by
  refine List.pairwise_filterMap.mpr (List.pairwise_map.mpr (h.imp_of_mem ?_))
  rintro ⟨i, v⟩ ⟨j, w⟩ hi hj hlt x hx y hy
  rw [← (candidate_value hv hs hasks (accepted_stored hx) (horder.mem_iff.mp hi)).2,
    ← (candidate_value hv hs hasks (accepted_stored hy) (horder.mem_iff.mp hj)).2]
  exact hlt

theorem newestFirst_of_times (h : a.TimesInOrder fs) : a.NewestFirst fs := by
  intro sent hsent
  unfold MayAnswer at hsent
  split at hsent
  · subst hsent
    simp [sentEvents]
  obtain ⟨order, takes, subid, hsorted, rfl⟩ := hsent
  have hperm := accepted_perm hv hasks hsorted.perm
  have hall := accepted_ranked hv hs hasks hsorted.perm
    ((sortedFrom_iff hv hs hasks hsorted.perm).mp hsorted)
  rw [answer_streamed, sentEvents_replies]
  have hprefix := (streamed_isPrefix takes 0 _).trans
    (upTo_isPrefix (Session.reqLimit fs) (a.accepted fs (order.map Prod.fst)))
  have hlimit : ∀ n, Session.reqLimit fs = some n → (streamed takes 0 (upTo (Session.reqLimit fs)
      (a.accepted fs (order.map Prod.fst)))).1.length ≤ n := by
    intro n hn
    refine (streamed_isPrefix takes 0 _).length_le.trans ?_
    rw [hn]
    exact List.length_take_le n _
  generalize (streamed takes 0 _).1 = sent at hprefix hlimit ⊢
  obtain ⟨left, hleft⟩ := hprefix
  rw [← hleft] at hall hperm
  have hnewer (x : Event) (hx : x ∈ sent ++ left) (y : Event) (hy : y ∈ sent ++ left)
      (hlt : x.createdAt < y.createdAt)
      (hreached : Reached (rl.engine.orderValue fs) (Session.reqLimit fs) (sent ++ left) x) :
      rl.engine.orderValue fs x < rl.engine.orderValue fs y :=
    h hasks x (hperm.mem_iff.mp hx) y (hperm.mem_iff.mp hy) hlt (hreached.perm hperm)
  obtain ⟨hsent, hout⟩ := hall.in_order hlimit hnewer
  refine ⟨hsent.imp Int64.not_lt.mp, fun i e hi hl hm hno x hx => Int64.not_lt.mp ?_⟩
  refine hout x hx e ((List.mem_append.mp (hperm.mem_iff.mpr (mem_asked.mpr ?_))).resolve_left hno)
  obtain ⟨e', hi', hfound⟩ := (candidate_found hv hasks).mp hl
  cases same_record a.ids_nodup hi hi' rfl
  exact ⟨mem_events.mpr ⟨i, hi⟩, hfound, hm⟩

/-- An older event that is within the limit may be sent before all that it is not sorted
behind. -/
theorem times_of_newestFirst (h : a.NewestFirst fs) : a.TimesInOrder fs := by
  intro _ e he e' he' hlt hreached
  by_contra hno
  obtain ⟨he, hfound, hm⟩ := mem_asked.mp he
  obtain ⟨he', hfound', hm'⟩ := mem_asked.mp he'
  obtain ⟨i, hi⟩ := mem_events.mp he
  obtain ⟨j, hj⟩ := mem_events.mp he'
  obtain ⟨v, hvi⟩ := (candidate_found hv hasks).mpr ⟨e, hi, hfound⟩
  have hvalue {k : DocID} {x : Event} {u : OrderingItem} (hk : (k, .event x) ∈ a.records)
      (hu : (k, u) ∈ a.candidates fs) : dated u = rl.engine.orderValue fs x :=
    (candidate_value hv hs hasks hk hu).2
  have hsort := (sortedFrom_iff hv hs hasks (rl.engine.sort_perm _)).mp
    ⟨rl.engine.sort_perm _, rl.engine.sort_sorted _⟩
  obtain ⟨above, rest, hperm, hranked, habove, -⟩ :=
    hsort.first ((rl.engine.sort_perm _).mem_iff.mpr hvi)
  have horder := hperm.trans (rl.engine.sort_perm _)
  have hmay : a.MayAnswer fs (Session.answer rl a (fun _ => true) fs [] 0 (Session.reqLimit fs)
      ((above ++ (i, v) :: rest).map Prod.fst)).1 := by
    unfold MayAnswer
    rw [rl.engine.findInIndex_lists a.records hasks]
    exact ⟨_, _, _, (sortedFrom_iff hv hs hasks horder).mpr hranked, rfl⟩
  obtain ⟨hsent, hleft⟩ := h _ hmay
  have hall := accepted_perm hv hasks horder
  have hsplit : a.accepted fs ((above ++ (i, v) :: rest).map Prod.fst) =
      a.accepted fs (above.map Prod.fst) ++ e :: a.accepted fs (rest.map Prod.fst) := by
    rw [List.map_append, List.map_cons]
    exact accepted_split (find_iff.mpr hi) hm _ _
  have hbefore : ∀ x ∈ a.accepted fs (above.map Prod.fst),
      rl.engine.orderValue fs e < rl.engine.orderValue fs x := by
    intro x hx
    obtain ⟨k, hk, hst, -⟩ := mem_accepted.mp hx
    obtain ⟨⟨k, u⟩, hu, rfl⟩ := List.mem_map.mp hk
    rw [← hvalue hi hvi, ← hvalue hst (horder.mem_iff.mp (List.mem_append_left _ hu))]
    exact habove _ hu
  rw [hsplit] at hall
  obtain ⟨more, hmore⟩ := upTo_reaches (hreached.above hall hbefore) e
    (a.accepted fs (rest.map Prod.fst))
  rw [answer_open, hsplit, hmore] at hsent hleft
  by_cases hin : e' ∈ a.accepted fs (above.map Prod.fst) ++ e :: more
  · rcases List.mem_append.mp hin with hin | hin
    · exact hno (hbefore e' hin)
    · rcases List.mem_cons.mp hin with rfl | hin
      · exact Int64.lt_irrefl hlt
      · have hle := (List.pairwise_cons.mp (List.pairwise_append.mp hsent).2.1).1 e' hin
        exact Int64.lt_irrefl (Int64.lt_of_lt_of_le hlt hle)
  · have hle := hleft j e' hj ((candidate_found hv hasks).mpr ⟨e', hj, hfound'⟩) hm' hin e
      (by simp)
    exact Int64.lt_irrefl (Int64.lt_of_lt_of_le hlt hle)

end

/-- A request without a search text is answered newest first, whatever the order of equal
candidates and wherever the stream ends, exactly when of any two events that it asks for the
newer one is sorted first, as far as the older one is within the limit. -/
theorem req_newest_first_iff {a : App rl} (hv : a.Valid) {fs : List Filter}
    (hs : ∀ f ∈ fs, f.ftSearch = []) : a.NewestFirst fs ↔ a.TimesInOrder fs := by
  by_cases hasks : ∀ f ∈ fs, f.unrestricted = false
  · exact ⟨times_of_newestFirst hv hs hasks, newestFirst_of_times hv hs hasks⟩
  · refine iff_of_true ?_ (fun h => absurd h hasks)
    have hlist : rl.engine.sets.inverted (rl.engine.findInIndex a.records fs) = true := by
      rw [Engine.findInIndex_inverted, List.any_eq_true]
      simpa using hasks
    intro sent hsent
    rw [MayAnswer, if_pos hlist] at hsent
    subst hsent
    simp [sentEvents]

def fullAuthor (k : Pubkey) : Filter := { authors := [.full k] }

/-- What is read as the time of a whole author's rows is a part of the author's key. -/
theorem later_note_sent_last :
    ¬ (appHolding note laterNote).NewestFirst [fullAuthor note.author] := by
  intro h
  have hmay := storedAnswer_mayAnswer { app := appHolding note laterNote, peer := newPeer }
    (fun _ => true)
    [fullAuthor note.author] []
  have hsent : sentEvents (Session.storedAnswer
    { app := appHolding note laterNote, peer := newPeer } (fun _ => true)
    [fullAuthor note.author] []).1 = [note, laterNote] := by decide +kernel
  have horder := (h _ hmay).1
  rw [hsent] at horder
  exact absurd (List.rel_of_pairwise_cons horder (List.mem_singleton_self _)) (by decide)

/-- Asked for by their kind, the latest note is sent. -/
theorem notes_newest_first :
    (appHolding note laterNote).NewestFirst [{ kinds := [1], limit := some 1 }] := by
  have hvalid : (appHolding note laterNote).Valid := appHolding_valid (by decide +kernel) rfl rfl
  have hevents : (appHolding note laterNote).events = [note, laterNote] := rfl
  refine (req_newest_first_iff hvalid (by simp)).mpr (fun _ e he e' he' hlt _ => ?_)
  have he := (mem_asked.mp he).1
  have he' := (mem_asked.mp he').1
  rw [hevents] at he he'
  rcases List.mem_pair.mp he with rfl | rfl <;> rcases List.mem_pair.mp he' with rfl | rfl <;>
    first | exact absurd hlt (by decide) | decide +kernel

end App

end NostrServer
