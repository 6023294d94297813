import NostrServer.Completion
import NostrServer.Counting
import NostrServer.Lib.Scoring

namespace NostrServer
open Docdb

/-- The relevance a candidate carries, before its time. -/
def carried (v : OrderingItem) : Nat := v.1.toNat

/-- The time it carries. -/
def dated (v : OrderingItem) : Nat := v.2.toNat

theorem toNat_max (x y : UInt32) : (max x y).toNat = max x.toNat y.toNat := by
  have hmax : max x y = if x ≤ y then y else x := rfl
  simp only [hmax, max_def, UInt32.le_iff_toNat_le]
  split <;> rfl

theorem carried_merge (x y : OrderingItem) :
    carried (mergeRelevance x y) = max (carried x) (carried y) :=
  toNat_max x.1 y.1

theorem dated_merge (x y : OrderingItem) :
    dated (mergeRelevance x y) = max (dated x) (dated y) :=
  toNat_max x.2 y.2

theorem orderingLt_iff (v w : OrderingItem) : orderingLt v w = true ↔
    carried v < carried w ∨ (carried v = carried w ∧ dated v < dated w) := by
  simp [orderingLt, carried, dated, UInt32.lt_iff_toNat_lt, UInt32.toNat_inj]

def Filter.Finds (ext : External) (f : Filter) (ev : Event) : Prop :=
  (f.ftSearch ≠ [] → f.FindsText ext ev) ∧ f.Selects ext.hasher ev

instance (ext : External) (ev : Event) (tk : WordToken) : Decidable (ev.HasWord ext tk) :=
  inferInstanceAs (Decidable (∃ row ∈ indexForFulltextFn ext (.event ev), _))

instance (ext : External) (f : Filter) (ev : Event) : Decidable (f.FindsText ext ev) :=
  inferInstanceAs (Decidable (∃ tk ∈ tokenizeText ext f.ftSearch, ev.HasWord ext tk))

instance (ext : External) (f : Filter) (ev : Event) : Decidable (f.Finds ext ev) :=
  inferInstanceAs (Decidable (_ ∧ _))

def foundBy (ext : External) (fs : List Filter) (ev : Event) : Bool :=
  fs.any (fun f => decide (f.Finds ext ev))

/-- A condition that the event meets orders it by its time. -/
def Filter.ReadsTime (f : Filter) (ev : Event) : Prop :=
  f.ids ≠ [] ∨ f.tags ≠ [] ∨ f.kinds ≠ [] ∨
    (∃ a ∈ f.authors, a.count ≠ 32 ∧ a.cmpShorten ev.author = true) ∨
    (f.authors = [] ∧ (f.since.isSome || f.untilTime.isSome) = true)

/-- The event's author is listed in full, which orders it by a part of the key. -/
def Filter.ReadsKey (f : Filter) (ev : Event) : Prop :=
  ∃ a ∈ f.authors, a.count = 32 ∧ a.cmpShorten ev.author = true ∧ f.InTime ev

instance (f : Filter) (ev : Event) : Decidable (f.ReadsTime ev) :=
  inferInstanceAs (Decidable (_ ∨ _))

instance (f : Filter) (ev : Event) : Decidable (f.ReadsKey ev) :=
  inferInstanceAs (Decidable (∃ a ∈ f.authors, _))

namespace Engine
variable (en : Engine) {id : DocID}

section
variable [LinearOrder R] {score : OrderingItem → R}
variable (hscore : ∀ x y, score (mergeRelevance x y) = max (score x) (score y))
include hscore

/-- A filter scores a document by all of its conditions. -/
theorem scores_filterSet (rs : Records EventOrAttachment) (f : Filter)
    {word : WordToken → Set R} {one author : ShortenID → Set R} {tag : UInt8 → Str → Set R}
    {kind : UInt32 → Set R} {time : Set R}
    (hword : ∀ tk, Scores en.sets score id (en.searchToken rs tk) (word tk))
    (hid : ∀ a, Scores en.sets score id (en.searchId rs a) (one a))
    (hauthor : ∀ a, Scores en.sets score id (en.searchAuthor rs f a) (author a))
    (htag : ∀ t x, Scores en.sets score id (en.searchTag rs f t x) (tag t x))
    (hkind : ∀ k, Scores en.sets score id (en.searchKind rs f k) (kind k))
    (htime : Scores en.sets score id (en.searchTime rs f) time) :
    Scores en.sets score id (en.filterSet rs f) {r |
      (f.ftSearch ≠ [] ∧ ∃ tk ∈ tokenizeText en.ext f.ftSearch,
        en.sets.Contains (en.searchToken rs tk) id ∧ r ∈ word tk) ∨
      (∃ a ∈ f.ids, en.sets.Contains (en.searchId rs a) id ∧ r ∈ one a) ∨
      (∃ a ∈ f.authors, en.sets.Contains (en.searchAuthor rs f a) id ∧ r ∈ author a) ∨
      (∃ t ∈ f.tags, ∃ x ∈ t.2, en.sets.Contains (en.searchTag rs f t.1 x) id ∧ r ∈ tag t.1 x) ∨
      (∃ k ∈ f.kinds, en.sets.Contains (en.searchKind rs f k) id ∧ r ∈ kind k) ∨
      (f.needTime = true ∧ (f.since.isSome || f.untilTime.isSome) = true ∧ r ∈ time)} := by
  obtain ⟨iword, iid, iauthor, itag, ikind, itime⟩ := en.searches_inverted f rs
  have unite {α : Type} {sel : α → en.sets.Set} {scores : α → Set R}
      (hi : ∀ a, en.sets.inverted (sel a) = false)
      (hsel : ∀ a, Scores en.sets score id (sel a) (scores a)) (values : List α) :
      en.sets.inverted (en.unite sel values) = false ∧
        Scores en.sets score id (en.unite sel values)
          {r | ∃ a ∈ values, en.sets.Contains (sel a) id ∧ r ∈ scores a} :=
    ⟨en.unite_listed hi values, Scores.union hscore (fun a _ => ⟨hi a, hsel a⟩)⟩
  have hwords := unite iword hword (tokenizeText en.ext f.ftSearch)
  have hids := unite iid hid f.ids
  have hauthors := unite iauthor hauthor f.authors
  have htags (t : UInt8 × List Str) := unite (itag t.1) (htag t.1) t.2
  have hkinds := unite ikind hkind f.kinds
  have h := Scores.all.and_unless hscore (c := f.ftSearch.isEmpty) hwords.1 hwords.2
  have h' := h.and_unless hscore (c := f.ids.isEmpty) hids.1 hids.2
  have h'' := h'.and_unless hscore (c := f.authors.isEmpty) hauthors.1 hauthors.2
  have hend := ((h''.and_all hscore htags f.tags).and_unless hscore (c := f.kinds.isEmpty)
    hkinds.1 hkinds.2).and_when hscore
      (c := f.needTime && (f.since.isSome || f.untilTime.isSome)) itime htime
  refine Scores.same (.leave (fun hc => hc) (.leave (fun hc => (Bool.and_eq_true_iff.mp hc).2)
    (.leave (fun hc => (Bool.and_eq_true_iff.mp hc).2) hend))) ?_
  have nonempty {α : Type} {p : α → Prop} (l : List α) :
      (¬ l = [] ∧ ∃ a ∈ l, p a) ↔ ∃ a ∈ l, p a := by
    refine and_iff_right_of_imp ?_
    rintro ⟨a, ha, -⟩
    exact List.ne_nil_of_mem ha
  ext r
  simp only [Set.mem_union, Set.mem_ofPred_eq, Set.mem_empty_iff_false, false_or, nonempty,
    List.isEmpty_eq_false_iff, Bool.and_eq_true, or_assoc, and_assoc, ne_eq]

theorem scores_findInIndex (rs : Records EventOrAttachment) {fs : List Filter}
    (hasks : ∀ f ∈ fs, f.unrestricted = false) {scores : Filter → Set R}
    (h : ∀ f ∈ fs, Scores en.sets score id (en.filterSet rs f) (scores f)) :
    Scores en.sets score id (en.findInIndex rs fs)
      {r | ∃ f ∈ fs, en.sets.Contains (en.filterSet rs f) id ∧ r ∈ scores f} :=
  Scores.union hscore (fun f hf => ⟨(en.filterSet_inverted rs f).trans (hasks f hf), h f hf⟩)

end

theorem readTime_field (head : Str) (t : Int64) :
    multiIndexOrdering en.keys head.length (head ++ en.keys.time t) = uniqueKeyValueOrdering t := by
  have htake : (en.keys.time t).take 8 = en.keys.time t :=
    List.take_of_length_le (Nat.le_of_eq (en.keys.time_length t))
  simp [multiIndexOrdering, htake, en.keys.readTime_time]

/-- What an author in full gives for a time: eight bytes from the middle of the key. -/
def authorTime (k : Pubkey) : Int64 := en.keys.readTime ((k.bytes.drop 8).take 8)

theorem readTime_author (k : Pubkey) (t : Int64) :
    multiIndexOrdering en.keys 8 (k.bytes ++ en.keys.time t) =
      uniqueKeyValueOrdering (en.authorTime k) := by
  have hfield : ((k.bytes ++ en.keys.time t).drop 8).take 8 = (k.bytes.drop 8).take 8 := by
    rw [List.drop_append_of_le_length (by rw [k.size]; decide),
      List.take_append_of_le_length (by rw [List.length_drop, k.size]; decide)]
  rw [multiIndexOrdering, hfield, authorTime]

/-- The relevance with which the document is listed for a word. Where several words of it
start so, the calculator has kept one of them. -/
def kept (rs : Records EventOrAttachment) (id : DocID) (tk : WordToken) : Nat :=
  ((en.sets.items (en.searchToken rs tk)).find id).elim 0 carried

theorem scores_searchToken (rs : Records EventOrAttachment) (tk : WordToken) :
    Scores en.sets carried id (en.searchToken rs tk) {en.kept rs id tk} := by
  refine .of_listed (en.pushRows_inverted _ _) (fun v hv => ?_)
  have hfind := (find_eq_some (en.sets.items_nodup _)).mpr hv
  rw [kept, hfind]
  exact isGreatest_singleton

/-- The scores that a filter gives an event: those of its words, of its time and of its
author's key. -/
def given {R : Type} (score : OrderingItem → R) (word : WordToken → Set R) (ev : Event)
    (f : Filter) : Set R :=
  {r | (f.ftSearch ≠ [] ∧ ∃ tk ∈ tokenizeText en.ext f.ftSearch,
      ev.HasWord en.ext tk ∧ r ∈ word tk) ∨
    (f.ReadsTime ev ∧ r = score (uniqueKeyValueOrdering ev.createdAt)) ∨
    (f.ReadsKey ev ∧ r = score (uniqueKeyValueOrdering (en.authorTime ev.author)))}

section
variable (st : Store en.ext) (hev : st.Has id ev)
variable [LinearOrder R] (score : OrderingItem → R)
include hev

/-- Rows of an index of events are the event's own. -/
theorem scores_index {emit : EventOrAttachment → List (Str × V)} {ordering : Row V → OrderingItem}
    {sel : Row V → Bool} {item : OrderingItem}
    (h : ∀ kv ∈ emit (.event ev), ordering ⟨kv.1, id, kv.2⟩ = item) :
    Scores en.sets score id (en.pushRows ((indexRows emit st.records).filter sel) ordering)
      {score item} := by
  refine .push (fun v hv => ?_)
  obtain ⟨⟨key, i, value⟩, hrow, he⟩ := List.mem_map.mp hv
  obtain ⟨rfl, rfl⟩ := Prod.mk.inj he
  obtain ⟨d, hd, hkv⟩ := mem_indexRows.mp (List.mem_filter.mp hrow).1
  cases same_record st.ids_nodup hd hev rfl
  exact congrArg score (h _ hkv)

theorem scores_searchId (a : ShortenID) : Scores en.sets score id (en.searchId st.records a)
    {score (uniqueKeyValueOrdering ev.createdAt)} := by
  unfold searchId
  split
  · exact en.scores_index st hev score (by simp [indexByIdFn])
  · split
    · rename_i row hrow
      refine .push (fun v hv => ?_)
      obtain ⟨rfl, rfl⟩ := Prod.mk.inj (List.mem_singleton.mp hv)
      obtain ⟨d, hd, hkv⟩ := mem_indexRows.mp (List.mem_of_find?_eq_some hrow)
      cases same_record st.ids_nodup hd hev rfl
      simp only [indexByIdFn, List.mem_singleton, Prod.mk.injEq] at hkv
      rw [hkv.2]
    · exact .push (fun v hv => absurd hv List.not_mem_nil)

theorem scores_searchAuthor (f : Filter) (a : ShortenID) :
    Scores en.sets score id (en.searchAuthor st.records f a)
      {score (uniqueKeyValueOrdering (if a.count = 32 then en.authorTime ev.author
        else ev.createdAt))} := by
  simp only [searchAuthor]
  by_cases ha : a.count = 32
  · simp only [ha, ne_eq, not_true_eq_false, ↓reduceIte]
    refine en.scores_index st hev score (fun kv hkv => ?_)
    rw [List.mem_singleton.mp hkv]
    exact en.readTime_author ev.author ev.createdAt
  · simp only [ha, ne_eq, not_false_eq_true, ↓reduceIte]
    refine en.scores_index st hev score (fun kv hkv => ?_)
    rw [List.mem_singleton.mp hkv]
    have h := en.readTime_field ev.author.bytes ev.createdAt
    rwa [ev.author.size] at h

theorem scores_searchTag (f : Filter) (t : UInt8) (x : Str) :
    Scores en.sets score id (en.searchTag st.records f t x)
      {score (uniqueKeyValueOrdering ev.createdAt)} := by
  refine en.scores_index st hev score (fun kv hkv => ?_)
  simp only [indexTagValueHashTimeFn, List.mem_map, List.mem_filter, decide_eq_true_eq] at hkv
  obtain ⟨tg, ⟨_, hl⟩, rfl⟩ := hkv
  have hlen : (tg.tag ++ en.keys.hash (en.ext.hasher tg.content)).length = 1 + 8 := by
    simp [hl, en.keys.hash_length]
  have h := en.readTime_field (tg.tag ++ en.keys.hash (en.ext.hasher tg.content)) ev.createdAt
  rwa [hlen] at h

theorem scores_searchKind (f : Filter) (k : UInt32) :
    Scores en.sets score id (en.searchKind st.records f k)
      {score (uniqueKeyValueOrdering ev.createdAt)} := by
  refine en.scores_index st hev score (fun kv hkv => ?_)
  rw [List.mem_singleton.mp hkv]
  have h := en.readTime_field (en.keys.kind ev.kind) ev.createdAt
  rwa [en.keys.kind_length] at h

theorem scores_searchTime (f : Filter) :
    Scores en.sets score id (en.searchTime st.records f)
      {score (uniqueKeyValueOrdering ev.createdAt)} := by
  refine en.scores_index st hev score (fun kv hkv => ?_)
  rw [List.mem_singleton.mp hkv]
  exact en.readTime_field [] ev.createdAt

theorem scores_filterSet_stored {score : OrderingItem → R}
    (hscore : ∀ x y, score (mergeRelevance x y) = max (score x) (score y)) {f : Filter}
    (hasks : f.unrestricted = false) {word : WordToken → Set R}
    (hword : ∀ tk, Scores en.sets score id (en.searchToken st.records tk) (word tk)) :
    Scores en.sets score id (en.filterSet st.records f) (en.given score word ev f) := by
  have hlist : en.sets.inverted (en.filterSet st.records f) = false :=
    (en.filterSet_inverted st.records f).trans hasks
  by_cases hfinds : f.Finds en.ext ev
  swap
  · refine .of_listed hlist (fun v hv => absurd ?_ hfinds)
    exact (en.contains_filterSet_stored st f hev).mp
      ((en.sets.contains_iff_listed hlist).mpr ⟨v, hv⟩)
  obtain ⟨-, hsel⟩ := hfinds
  refine (en.scores_filterSet hscore st.records f hword (en.scores_searchId st hev score)
    (en.scores_searchAuthor st hev score f) (en.scores_searchTag st hev score f)
    (en.scores_searchKind st hev score f) (en.scores_searchTime st hev score f)).same ?_
  ext r
  simp only [given, Set.mem_ofPred_eq, Set.mem_singleton_iff, contains_searchToken,
    contains_searchId, contains_searchAuthor, contains_searchTag, contains_searchKind, hev.only]
  refine or_congr_right ?_
  constructor
  · rintro (⟨a, ha, -, hr⟩ | ⟨a, ha, ⟨hc, htime⟩, hr⟩ | ⟨t, ht, -, -, -, hr⟩ | ⟨k, hk, -, hr⟩ |
      ⟨hneed, hbound, hr⟩)
    · exact Or.inl ⟨Or.inl (List.ne_nil_of_mem ha), hr⟩
    · by_cases hfull : a.count = 32
      · rw [if_pos hfull] at hr
        exact Or.inr ⟨⟨a, ha, hfull, hc, htime hfull⟩, hr⟩
      · rw [if_neg hfull] at hr
        exact Or.inl ⟨Or.inr (Or.inr (Or.inr (Or.inl ⟨a, ha, hfull, hc⟩))), hr⟩
    · exact Or.inl ⟨Or.inr (Or.inl (List.ne_nil_of_mem ht)), hr⟩
    · exact Or.inl ⟨Or.inr (Or.inr (Or.inl (List.ne_nil_of_mem hk))), hr⟩
    · refine Or.inl ⟨Or.inr (Or.inr (Or.inr ?_)), hr⟩
      by_cases hauthors : f.authors = []
      · exact Or.inr ⟨hauthors, hbound⟩
      · obtain ⟨a, ha, hc, -⟩ := hsel.authors hauthors
        simp only [Filter.needTime, Bool.and_eq_true, List.all_eq_true, decide_eq_true_eq] at hneed
        exact Or.inl ⟨a, ha, hneed.1.1 a ha, hc⟩
  · rintro (⟨hreads, hr⟩ | ⟨⟨a, ha, hfull, hc, htime⟩, hr⟩)
    · by_cases hids : f.ids = []
      swap
      · obtain ⟨a, ha, hc⟩ := hsel.ids hids
        exact Or.inl ⟨a, ha, hc, hr⟩
      by_cases htags : f.tags = []
      swap
      · obtain ⟨t, ht⟩ := List.exists_mem_of_ne_nil _ htags
        obtain ⟨x, hx, hrow⟩ := hsel.tags t ht
        exact Or.inr (Or.inr (Or.inl ⟨t, ht, x, hx, hrow, hr⟩))
      by_cases hkinds : f.kinds = []
      swap
      · obtain ⟨hk, htime⟩ := hsel.kinds hkinds
        exact Or.inr (Or.inr (Or.inr (Or.inl ⟨_, hk, ⟨rfl, htime⟩, hr⟩)))
      rcases hreads with h | h | h | ⟨a, ha, hshort, hc⟩ | ⟨hauthors, hbound⟩
      · exact absurd hids h
      · exact absurd htags h
      · exact absurd hkinds h
      · refine Or.inr (Or.inl ⟨a, ha, ⟨hc, fun hfull => absurd hfull hshort⟩, ?_⟩)
        rw [if_neg hshort]
        exact hr
      · have hneed : f.needTime = true := by simp [Filter.needTime, hauthors, htags, hkinds]
        exact Or.inr (Or.inr (Or.inr (Or.inr ⟨hneed, hbound, hr⟩)))
    · refine Or.inr (Or.inl ⟨a, ha, ⟨hc, fun _ => htime⟩, ?_⟩)
      rw [if_pos hfull]
      exact hr

/-- A candidate carries the greatest score that a filter which finds it gives it. -/
theorem findInIndex_greatest {score : OrderingItem → R}
    (hscore : ∀ x y, score (mergeRelevance x y) = max (score x) (score y)) {fs : List Filter}
    (hasks : ∀ f ∈ fs, f.unrestricted = false) {word : WordToken → Set R}
    (hword : ∀ tk, Scores en.sets score id (en.searchToken st.records tk) (word tk))
    (h : (id, v) ∈ en.sets.items (en.findInIndex st.records fs)) :
    IsGreatest {r | ∃ f ∈ fs, f.Finds en.ext ev ∧ r ∈ en.given score word ev f} (score v) := by
  have hscores := (en.scores_findInIndex hscore st.records hasks (fun f hf =>
    en.scores_filterSet_stored st hev hscore (hasks f hf) hword)).greatest v h
  simp only [contains_filterSet_stored en st _ hev] at hscores
  exact hscores

end

variable (st : Store en.ext)

/-- A filter that asks for something selects stored events only. -/
theorem found_stored {f : Filter} (hasks : f.unrestricted = false)
    (h : en.sets.Contains (en.filterSet st.records f) id) : ∃ ev, st.Has id ev := by
  by_cases hs : f.ftSearch = []
  · refine selected_stored en st f hs ?_ h
    by_contra hc
    exact absurd (Filter.unrestricted_iff.mpr ⟨hs, hc⟩) (by simp [hasks])
  · obtain ⟨tk, -, ev, hev, -⟩ := ((contains_filterSet_conditions en st f).mp h).1 hs
    exact ⟨ev, hev⟩

/-- The candidates of filters that each ask for something are the stored events that one
of them finds. -/
theorem found_listed {fs : List Filter} (hasks : ∀ f ∈ fs, f.unrestricted = false) :
    Listed (en.sets.items (en.findInIndex st.records fs)) id ↔
      ∃ ev, st.Has id ev ∧ ∃ f ∈ fs, f.Finds en.ext ev := by
  have hlist := en.findInIndex_lists st.records hasks
  rw [← Calculator.contains_iff_listed en.sets hlist, findInIndex, contains_unite]
  constructor
  · rintro ⟨f, hf, hin⟩
    obtain ⟨ev, hev⟩ := found_stored en st (hasks f hf) hin
    exact ⟨ev, hev, f, hf, (contains_filterSet_stored en st f hev).mp hin⟩
  · rintro ⟨ev, hev, f, hf, hfinds⟩
    exact ⟨f, hf, (contains_filterSet_stored en st f hev).mpr hfinds⟩

end Engine

end NostrServer
