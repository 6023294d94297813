import NostrServer.TagSlots

namespace NostrServer
open Docdb

/-- The time bounds of `append_time`: no lower bound stands for 0. -/
def Filter.InTime (f : Filter) (ev : Event) : Prop :=
  f.since.getD 0 ≤ ev.createdAt ∧ ev.createdAt ≤ f.untilTime.getD Int64.maxValue

/-- The tag index has a row of the event under the name and the hash of the content. -/
def Event.HasTagRow (hasher : Str → UInt64) (ev : Event) (t : UInt8) (x : Str) : Prop :=
  ∃ tg ∈ ev.tags, tg.tag = [t] ∧ hasher tg.content = hasher x

/-- The fulltext index has a row of the event under a word that starts with the token. -/
def Event.HasWord (ext : External) (ev : Event) (tk : WordToken) : Prop :=
  ∃ row ∈ indexForFulltextFn ext (.event ev), tk.1.isPrefixOf row.1 = true

/-- One of the words searched for starts a word of the event. -/
def Filter.FindsText (ext : External) (f : Filter) (ev : Event) : Prop :=
  ∃ tk ∈ tokenizeText ext f.ftSearch, ev.HasWord ext tk

/-- What the indexes check of an event for one filter, in place of `Filter::test`. -/
structure Filter.Selects (hasher : Str → UInt64) (f : Filter) (ev : Event) : Prop where
  ids : f.ids ≠ [] → ∃ a ∈ f.ids, a.cmpShorten ev.id = true
  authors : f.authors ≠ [] → ∃ a ∈ f.authors, a.cmpShorten ev.author = true ∧
    (a.count = 32 → f.InTime ev)
  tags : ∀ t ∈ f.tags, ∃ x ∈ t.2, ev.HasTagRow hasher t.1 x ∧ f.InTime ev
  kinds : f.kinds ≠ [] → ev.kind ∈ f.kinds ∧ f.InTime ev
  time : f.needTime = true → (f.since.isSome || f.untilTime.isSome) = true → f.InTime ev

theorem cmpShorten_full {a : ShortenID} (h : a.count = 32) :
    a.cmpShorten v = true ↔ v = a.value := by
  simp only [ShortenID.cmpShorten, h, beq_iff_eq]
  rw [List.take_of_length_le (Nat.le_of_eq a.value.size),
    List.take_of_length_le (Nat.le_of_eq v.size)]
  exact ⟨fun h => Binary.ext h.symm, fun h => by rw [h]⟩

namespace Engine
variable (en : Engine) {id : DocID}

theorem contains_unite {sel : α → en.sets.Set} {values : List α} :
    en.sets.Contains (en.unite sel values) id ↔ ∃ a ∈ values, en.sets.Contains (sel a) id := by
  rw [unite, Calculator.contains_foldl_or, Calculator.contains_push]
  simp [Listed]

/-- What a range of an index contains, where the index has rows of events only. -/
theorem contains_selected {emit : EventOrAttachment → List (Str × V)}
    (hatt : ∀ att, emit (.attachment att) = []) :
    en.sets.Contains (en.pushRows (selectBetween (indexRows emit rs) lo hi) ordering) id ↔
      ∃ ev, (id, .event ev) ∈ rs ∧ ∃ kv ∈ emit (.event ev), between lo hi kv.1 = true := by
  rw [pushRows, Calculator.contains_push]
  simp only [Listed, List.mem_map, Prod.mk.injEq, selectBetween, List.mem_filter]
  constructor
  · rintro ⟨v, row, ⟨hrow, hb⟩, rfl, _⟩
    obtain ⟨d, hd, hkv⟩ := mem_indexRows.mp hrow
    cases d with
    | event ev => exact ⟨ev, hd, _, hkv, hb⟩
    | attachment att => simp [hatt] at hkv
  · rintro ⟨ev, hev, kv, hkv, hb⟩
    exact ⟨_, ⟨kv.1, id, kv.2⟩, ⟨mem_indexRows.mpr ⟨_, hev, hkv⟩, hb⟩, rfl, rfl⟩

/-- Keys of one leading field and a time are selected by the field and the bounds. -/
theorem between_time {f : Filter} {field head : Str} (hl : field.length = head.length) :
    between (en.appendTime f field).1 (en.appendTime f field).2 (head ++ en.keys.time t) = true ↔
      head = field ∧ f.since.getD 0 ≤ t ∧ t ≤ f.untilTime.getD Int64.maxValue := by
  rw [appendTime, between_field hl (by simp [en.keys.time_length]) (by simp [en.keys.time_length]),
    en.keys.time_le, en.keys.time_le]

end Engine

/-- Keys that start with a whole array are selected by a leading part of it. -/
theorem between_shorten {a : ShortenID} {v : Binary 32} (rest : Str) :
    between (a.value.bytes.take a.count ++ List.replicate (32 - a.count) 0)
      (a.value.bytes.take a.count ++ List.replicate (32 - a.count) 0xFF) (v.bytes ++ rest) = true ↔
      a.cmpShorten v = true := by
  have hlen : (a.value.bytes.take a.count).length = a.count := by
    rw [List.length_take, a.value.size]
    exact Nat.min_eq_left a.bound
  rw [between_fill (32 - a.count) rest (by rw [hlen, v.size]; have := a.bound; omega), hlen]
  simp only [ShortenID.cmpShorten, beq_iff_eq]
  exact ⟨Eq.symm, Eq.symm⟩

/-- Nothing else is stored under the id. -/
theorem Store.Has.only {ext : External} {st : Store ext} {id : DocID} {ev : Event}
    (hev : st.Has id ev) {p : Event → Prop} :
    (∃ ev', st.Has id ev' ∧ p ev') ↔ p ev := by
  constructor
  · rintro ⟨ev', hev', hp⟩
    cases same_record st.ids_nodup hev hev' rfl
    exact hp
  · exact fun hp => ⟨ev, hev, hp⟩

namespace Engine
variable (en : Engine) (st : Store en.ext) {id : DocID}

/-- The lookup of a whole id finds the one event that has it. -/
theorem contains_found (v : ID) :
    en.sets.Contains (match (indexRows indexByIdFn st.records).find?
      (fun row => row.key == v.bytes) with
      | some row => en.sets.push [(row.id, uniqueKeyValueOrdering row.value)]
      | none => en.sets.push []) id ↔ ∃ ev, st.Has id ev ∧ ev.id = v := by
  split
  · rename_i row hrow
    have hkey : row.key = v.bytes := by simpa using List.find?_some hrow
    obtain ⟨d, hd, hkv⟩ := mem_indexRows.mp (List.mem_of_find?_eq_some hrow)
    cases d with
    | attachment att => simp [indexByIdFn] at hkv
    | event ev =>
      simp only [indexByIdFn, List.mem_singleton, Prod.mk.injEq] at hkv
      have hid : ev.id = v := Binary.ext (hkv.1.symm.trans hkey)
      rw [Calculator.contains_push]
      simp only [Listed, List.mem_singleton, Prod.mk.injEq]
      constructor
      · rintro ⟨_, rfl, _⟩
        exact ⟨ev, hd, hid⟩
      · rintro ⟨ev', hev', hid'⟩
        exact ⟨_, (Store.same_id hev' hd (hid'.trans hid.symm)).1, rfl⟩
  · rename_i hnone
    rw [Calculator.contains_push]
    simp only [Listed, List.not_mem_nil, exists_false, false_iff, not_exists, not_and]
    intro ev hev hid
    have hrow : (⟨ev.id.bytes, id, ev.createdAt⟩ : Row Int64) ∈ indexRows indexByIdFn st.records :=
      mem_indexRows.mpr ⟨_, hev, by simp [indexByIdFn]⟩
    have := List.find?_eq_none.mp hnone _ hrow
    simp [hid] at this

theorem contains_searchId (a : ShortenID) :
    en.sets.Contains (en.searchId st.records a) id ↔
    ∃ ev, st.Has id ev ∧ a.cmpShorten ev.id = true := by
  unfold searchId
  split
  · rw [searchShortenID, contains_selected en (fun _ => rfl)]
    refine exists_congr (fun ev => and_congr_right (fun _ => ?_))
    simp only [indexByIdFn, List.mem_singleton, exists_eq_left]
    simpa using between_shorten (v := ev.id) []
  · rename_i hfull
    have hfull : a.count = 32 := Classical.not_not.mp hfull
    simp only [cmpShorten_full hfull]
    exact contains_found en st a.value

theorem contains_searchAuthor (f : Filter) (a : ShortenID) :
    en.sets.Contains (en.searchAuthor st.records f a) id ↔
      ∃ ev, st.Has id ev ∧ a.cmpShorten ev.author = true ∧ (a.count = 32 → f.InTime ev) := by
  simp only [searchAuthor]
  split
  · rename_i hshort
    have hshort : a.count ≠ 32 := hshort
    rw [searchShortenID, contains_selected en (fun _ => rfl)]
    refine exists_congr (fun ev => and_congr_right (fun _ => ?_))
    simp [indexByPubkeyHashTimeFn, between_shorten, hshort]
  · rename_i hfull
    have hfull : a.count = 32 := Classical.not_not.mp hfull
    rw [selectTime, contains_selected en (fun _ => rfl)]
    refine exists_congr (fun ev => and_congr_right (fun _ => ?_))
    simp only [indexByPubkeyHashTimeFn, List.mem_singleton, exists_eq_left]
    rw [en.between_time (by rw [a.value.size, ev.author.size]), cmpShorten_full hfull]
    simp only [hfull, forall_const, Filter.InTime, Binary.ext_iff]

theorem contains_searchTag (f : Filter) (t : UInt8) (x : Str) :
    en.sets.Contains (en.searchTag st.records f t x) id ↔
      ∃ ev, st.Has id ev ∧ ev.HasTagRow en.ext.hasher t x ∧ f.InTime ev := by
  rw [searchTag, selectTime, contains_selected en (fun _ => rfl)]
  refine exists_congr (fun ev => and_congr_right (fun _ => ?_))
  simp only [indexTagValueHashTimeFn, List.mem_map, List.mem_filter, decide_eq_true_eq]
  have hlen (tg : Tag) (h1 : tg.tag.length = 1) : ([t] ++ en.keys.hash (en.ext.hasher x)).length =
      (tg.tag ++ en.keys.hash (en.ext.hasher tg.content)).length := by
    simp [en.keys.hash_length, h1]
  constructor
  · rintro ⟨_, ⟨tg, ⟨htg, h1⟩, rfl⟩, hb⟩
    obtain ⟨hh, ht⟩ := (en.between_time (hlen tg h1)).mp hb
    obtain ⟨hname, hhash⟩ := List.append_inj hh h1
    exact ⟨⟨tg, htg, hname, en.keys.hash_injective hhash⟩, ht⟩
  · rintro ⟨⟨tg, htg, hname, hhash⟩, ht⟩
    have h1 : tg.tag.length = 1 := by simp [hname]
    exact ⟨_, ⟨tg, ⟨htg, h1⟩, rfl⟩, (en.between_time (hlen tg h1)).mpr ⟨by rw [hname, hhash], ht⟩⟩

theorem contains_searchKind (f : Filter) (k : UInt32) :
    en.sets.Contains (en.searchKind st.records f k) id ↔ ∃ ev, st.Has id ev ∧ ev.kind = k ∧
    f.InTime ev := by
  rw [searchKind, selectTime, contains_selected en (fun _ => rfl)]
  refine exists_congr (fun ev => and_congr_right (fun _ => ?_))
  simp only [indexKindTimeFn, List.mem_singleton, exists_eq_left]
  rw [en.between_time (by simp [en.keys.kind_length])]
  exact and_congr_left (fun _ => ⟨fun h => en.keys.kind_injective h, fun h => by rw [h]⟩)

theorem contains_searchTime (f : Filter) :
    en.sets.Contains (en.searchTime st.records f) id ↔ ∃ ev, st.Has id ev ∧ f.InTime ev := by
  rw [searchTime, selectTime, contains_selected en (fun _ => rfl)]
  refine exists_congr (fun ev => and_congr_right (fun _ => ?_))
  simp only [indexTimeFn, List.mem_singleton, exists_eq_left]
  have hb : between (en.appendTime f []).1 (en.appendTime f []).2
      ([] ++ en.keys.time ev.createdAt) = true ↔ _ :=
    en.between_time rfl
  simpa [Filter.InTime] using hb

theorem contains_searchToken (tk : WordToken) :
    en.sets.Contains (en.searchToken st.records tk) id ↔
    ∃ ev, st.Has id ev ∧ ev.HasWord en.ext tk := by
  rw [searchToken, pushRows, Calculator.contains_push]
  simp only [Listed, List.mem_map, Prod.mk.injEq, List.mem_filter]
  constructor
  · rintro ⟨v, row, ⟨hrow, hp⟩, rfl, _⟩
    obtain ⟨d, hd, hkv⟩ := mem_indexRows.mp hrow
    cases d with
    | event ev => exact ⟨ev, hd, _, hkv, hp⟩
    | attachment att => simp [indexForFulltextFn] at hkv
  · rintro ⟨ev, hev, kv, hkv, hp⟩
    exact ⟨_, ⟨kv.1, id, kv.2⟩, ⟨mem_indexRows.mpr ⟨_, hev, hkv⟩, hp⟩, rfl, rfl⟩

/-- A filter selects a document by all of its conditions. -/
theorem contains_filterSet_conditions (f : Filter) :
    en.sets.Contains (en.filterSet st.records f) id ↔
      (f.ftSearch ≠ [] → ∃ tk ∈ tokenizeText en.ext f.ftSearch, ∃ ev, st.Has id ev ∧
        ev.HasWord en.ext tk) ∧
      (f.ids ≠ [] → ∃ a ∈ f.ids, ∃ ev, st.Has id ev ∧ a.cmpShorten ev.id = true) ∧
      (f.authors ≠ [] → ∃ a ∈ f.authors, ∃ ev, st.Has id ev ∧ a.cmpShorten ev.author = true ∧
        (a.count = 32 → f.InTime ev)) ∧
      (∀ t ∈ f.tags, ∃ x ∈ t.2, ∃ ev, st.Has id ev ∧ ev.HasTagRow en.ext.hasher t.1 x ∧
        f.InTime ev) ∧
      (f.kinds ≠ [] → ∃ k ∈ f.kinds, ∃ ev, st.Has id ev ∧ ev.kind = k ∧ f.InTime ev) ∧
      (f.needTime = true → (f.since.isSome || f.untilTime.isSome) = true → ∃ ev, st.Has id ev ∧
        f.InTime ev) := by
  have htime (s : en.sets.Set) : en.sets.Contains
      (if f.needTime && (f.since.isSome || f.untilTime.isSome)
      then en.sets.and mergeRelevance s (en.searchTime st.records f) else s) id ↔
        en.sets.Contains s id ∧
        (f.needTime = true → (f.since.isSome || f.untilTime.isSome) = true → ∃ ev, st.Has id ev ∧
          f.InTime ev) := by
    split
    · rename_i hc
      simp only [Bool.and_eq_true] at hc
      simp [hc, contains_searchTime]
    · rename_i hc
      simp only [Bool.and_eq_true, not_and] at hc
      exact ⟨fun h => ⟨h, fun hn hb => absurd hb (hc hn)⟩, And.left⟩
  have hrest (s : en.sets.Set) : en.sets.Contains
      (let s := f.tags.foldl (fun s t => en.sets.and mergeRelevance s
        (en.unite (en.searchTag st.records f t.1) t.2)) s
      let s := if f.kinds.isEmpty then s
        else en.sets.and mergeRelevance s (en.unite (en.searchKind st.records f) f.kinds)
      if f.needTime && (f.since.isSome || f.untilTime.isSome)
      then en.sets.and mergeRelevance s (en.searchTime st.records f) else s) id ↔
      en.sets.Contains s id ∧ (∀ t ∈ f.tags,
        en.sets.Contains (en.unite (en.searchTag st.records f t.1) t.2) id) ∧
        (f.kinds.isEmpty = false →
          en.sets.Contains (en.unite (en.searchKind st.records f) f.kinds) id) ∧
        (f.needTime = true → (f.since.isSome || f.untilTime.isSome) = true → ∃ ev, st.Has id ev ∧
          f.InTime ev) := by
    dsimp only
    rw [htime, Calculator.contains_unless, Calculator.contains_foldl_and, and_assoc, and_assoc]
  simp only [filterSet]
  rw [Calculator.contains_leave_empty en.sets
    ((Calculator.contains_leave en.sets ((Calculator.contains_leave en.sets
    (hrest _)).trans (by rw [Calculator.contains_unless, and_assoc]))).trans
    (by rw [Calculator.contains_unless, and_assoc])), Calculator.contains_unless]
  simp only [contains_unite, contains_searchToken, contains_searchId, contains_searchAuthor,
    contains_searchTag, contains_searchKind, Calculator.contains_all, true_and,
    List.isEmpty_eq_false_iff]

/-- Without a search text only the other conditions are left. -/
theorem contains_filterSet_iff (f : Filter) (hs : f.ftSearch = []) :
    en.sets.Contains (en.filterSet st.records f) id ↔
      (f.ids ≠ [] → ∃ a ∈ f.ids, ∃ ev, st.Has id ev ∧ a.cmpShorten ev.id = true) ∧
      (f.authors ≠ [] → ∃ a ∈ f.authors, ∃ ev, st.Has id ev ∧ a.cmpShorten ev.author = true ∧
        (a.count = 32 → f.InTime ev)) ∧
      (∀ t ∈ f.tags, ∃ x ∈ t.2, ∃ ev, st.Has id ev ∧ ev.HasTagRow en.ext.hasher t.1 x ∧
        f.InTime ev) ∧
      (f.kinds ≠ [] → ∃ k ∈ f.kinds, ∃ ev, st.Has id ev ∧ ev.kind = k ∧ f.InTime ev) ∧
      (f.needTime = true → (f.since.isSome || f.untilTime.isSome) = true → ∃ ev, st.Has id ev ∧
        f.InTime ev) := by
  rw [contains_filterSet_conditions en st f]
  simp [hs]

/-- The set of a filter holds a stored event exactly when the indexes select it. -/
theorem contains_filterSet_stored (f : Filter) (hev : st.Has id ev) :
    en.sets.Contains (en.filterSet st.records f) id ↔
      (f.ftSearch ≠ [] → f.FindsText en.ext ev) ∧ f.Selects en.ext.hasher ev := by
  rw [contains_filterSet_conditions en st f]
  simp only [hev.only]
  apply and_congr_right
  intro _
  constructor
  · rintro ⟨hi, ha, ht, hk, hn⟩
    refine ⟨hi, ha, ht, fun h => ?_, hn⟩
    obtain ⟨k, hk, rfl, hin⟩ := hk h
    exact ⟨hk, hin⟩
  · rintro ⟨hi, ha, ht, hk, hn⟩
    exact ⟨hi, ha, ht, fun h => ⟨ev.kind, (hk h).1, rfl, (hk h).2⟩, hn⟩

theorem contains_filterSet (f : Filter) (hs : f.ftSearch = []) (hev : st.Has id ev) :
    en.sets.Contains (en.filterSet st.records f) id ↔ f.Selects en.ext.hasher ev := by
  rw [contains_filterSet_stored en st f hev]
  simp [hs]

/-- A filter with a condition selects stored events only. -/
theorem selected_stored (f : Filter) (hs : f.ftSearch = []) (hc : f.Conditioned)
    (h : en.sets.Contains (en.filterSet st.records f) id) : ∃ ev, st.Has id ev := by
  obtain ⟨hi, ha, ht, hk, hn⟩ := (contains_filterSet_iff en st f hs).mp h
  by_cases h1 : f.ids = []
  · by_cases h2 : f.authors = []
    · by_cases h3 : f.tags = []
      · by_cases h4 : f.kinds = []
        · have htime : (f.since.isSome || f.untilTime.isSome) = true := by
            simpa [Filter.Conditioned, h1, h2, h3, h4] using hc
          obtain ⟨ev, hev, _⟩ := hn (by simp [Filter.needTime, h2, h3, h4]) htime
          exact ⟨ev, hev⟩
        · obtain ⟨k, _, ev, hev, _⟩ := hk h4
          exact ⟨ev, hev⟩
      · obtain ⟨t, htm⟩ := List.exists_mem_of_ne_nil _ h3
        obtain ⟨x, _, ev, hev, _⟩ := ht t htm
        exact ⟨ev, hev⟩
    · obtain ⟨a, _, ev, hev, _⟩ := ha h2
      exact ⟨ev, hev⟩
  · obtain ⟨a, _, ev, hev, _⟩ := hi h1
    exact ⟨ev, hev⟩

/-- What `find_in_index` leaves on the stack, read at the stored events. -/
theorem contains_findInIndex {fs : List Filter} (hs : ∀ f ∈ fs, f.ftSearch = [])
    (hev : st.Has id ev) :
    en.sets.Contains (en.findInIndex st.records fs) id ↔ ∃ f ∈ fs, f.Selects en.ext.hasher ev := by
  rw [findInIndex, contains_unite]
  exact exists_congr (fun f => and_congr_right (fun hf => contains_filterSet en st f (hs f hf) hev))

theorem pushRows_inverted (rows : List (Row V)) (ordering : Row V → OrderingItem) :
    en.sets.inverted (en.pushRows rows ordering) = false := en.sets.push_inverted _

theorem unite_inverted (sel : α → en.sets.Set) (values : List α) :
    en.sets.inverted (en.unite sel values) = values.any (fun a => en.sets.inverted (sel a)) := by
  rw [unite, Calculator.inverted_foldl_or, en.sets.push_inverted, Bool.false_or]

/-- What the indexes select is listed. -/
theorem searches_inverted (f : Filter) (rs : Records EventOrAttachment) :
    (∀ tk, en.sets.inverted (en.searchToken rs tk) = false) ∧
    (∀ a, en.sets.inverted (en.searchId rs a) = false) ∧
    (∀ a, en.sets.inverted (en.searchAuthor rs f a) = false) ∧
    (∀ t x, en.sets.inverted (en.searchTag rs f t x) = false) ∧
    (∀ k, en.sets.inverted (en.searchKind rs f k) = false) ∧
    en.sets.inverted (en.searchTime rs f) = false := by
  refine ⟨fun tk => en.pushRows_inverted _ _, fun a => ?_, fun a => ?_,
    fun t x => en.pushRows_inverted _ _, fun k => en.pushRows_inverted _ _,
    en.pushRows_inverted _ _⟩
  · unfold searchId
    split
    · exact en.pushRows_inverted _ _
    · split <;> exact en.sets.push_inverted _
  · simp only [searchAuthor]
    split <;> exact en.pushRows_inverted _ _

theorem unite_listed {sel : α → en.sets.Set} (h : ∀ a, en.sets.inverted (sel a) = false)
    (values : List α) :
    en.sets.inverted (en.unite sel values) = false := by
  rw [unite_inverted]
  simp [h]

/-- Only a filter that asks for nothing leaves the complement of a set. -/
theorem filterSet_inverted (rs : Records EventOrAttachment) (f : Filter) :
    en.sets.inverted (en.filterSet rs f) = f.unrestricted := by
  obtain ⟨htoken, hid, hauthor, htag, hkind, htime⟩ := en.searches_inverted f rs
  have hlast (s : en.sets.Set) : en.sets.inverted
      (let s := f.tags.foldl (fun s t =>
        en.sets.and mergeRelevance s (en.unite (en.searchTag rs f t.1) t.2)) s
      let s := if f.kinds.isEmpty then s
        else en.sets.and mergeRelevance s (en.unite (en.searchKind rs f) f.kinds)
      if f.needTime && (f.since.isSome || f.untilTime.isSome)
      then en.sets.and mergeRelevance s (en.searchTime rs f) else s) =
      (en.sets.inverted s && (f.tags.isEmpty && f.kinds.isEmpty &&
        !(f.needTime && (f.since.isSome || f.untilTime.isSome)))) := by
    dsimp only
    rw [Calculator.inverted_when en.sets htime,
      Calculator.inverted_unless en.sets (en.unite_listed hkind _),
      Calculator.inverted_foldl_and en.sets _ (fun t _ => en.unite_listed (htag t.1) _)]
    simp only [Bool.and_assoc]
  have hand {a b : Bool} (h : (a && b) = true) : b = true := (Bool.and_eq_true_iff.mp h).2
  simp only [filterSet]
  refine (Calculator.inverted_leave en.sets id (q := f.ids.isEmpty &&
    (f.authors.isEmpty && (f.tags.isEmpty &&
    f.kinds.isEmpty && !(f.needTime && (f.since.isSome || f.untilTime.isSome))))) ?_).trans ?_
  · refine (Calculator.inverted_leave en.sets hand (q := f.authors.isEmpty &&
      (f.tags.isEmpty && f.kinds.isEmpty &&
      !(f.needTime && (f.since.isSome || f.untilTime.isSome)))) ?_).trans ?_
    · refine (Calculator.inverted_leave en.sets hand (hlast _)).trans ?_
      rw [Calculator.inverted_unless en.sets (en.unite_listed hauthor _), Bool.and_assoc]
    · rw [Calculator.inverted_unless en.sets (en.unite_listed hid _), Bool.and_assoc]
  · rw [Calculator.inverted_unless en.sets (en.unite_listed htoken _), en.sets.all_inverted]
    rw [Bool.eq_iff_iff, Filter.unrestricted_iff]
    simp only [Filter.Conditioned, Bool.and_eq_true, List.isEmpty_iff, Bool.not_eq_true', not_or,
      Classical.not_not, Bool.true_and, Bool.and_eq_false_iff, Bool.or_eq_false_iff,
      Bool.not_eq_true]
    constructor
    · rintro ⟨ht, hi, ha, ⟨htags, hk⟩, hn⟩
      have hneed : f.needTime = true := by simp [Filter.needTime, ha, htags, hk]
      obtain ⟨hs, hu⟩ := hn.resolve_left (by simp [hneed])
      exact ⟨ht, hi, ha, hk, htags, hs, hu⟩
    · rintro ⟨ht, hi, ha, hk, htags, hs, hu⟩
      exact ⟨ht, hi, ha, ⟨htags, hk⟩, Or.inr ⟨hs, hu⟩⟩

/-- And so only a request with such a filter. -/
theorem findInIndex_inverted (rs : Records EventOrAttachment) (fs : List Filter) :
    en.sets.inverted (en.findInIndex rs fs) = fs.any Filter.unrestricted := by
  rw [findInIndex, unite_inverted]
  simp only [filterSet_inverted]

theorem findInIndex_lists (rs : Records EventOrAttachment) {fs : List Filter}
    (h : ∀ f ∈ fs, f.unrestricted = false) : en.sets.inverted (en.findInIndex rs fs) = false := by
  rw [findInIndex_inverted, List.any_eq_false]
  intro f hf
  simp [h f hf]

theorem contains_unrestricted {f : Filter} (h : f.unrestricted = true) :
    en.sets.Contains (en.filterSet st.records f) id := by
  obtain ⟨hs, hc⟩ := Filter.unrestricted_iff.mp h
  simp only [Filter.Conditioned, not_or, Classical.not_not] at hc
  obtain ⟨hi, ha, hk, ht, hsince, huntil⟩ := hc
  exact (contains_filterSet_iff en st f hs).mpr ⟨fun hn => absurd hi hn,
    fun hn => absurd ha hn, by simp [ht], fun hn => absurd hk hn,
    fun _ hb => absurd hb (by simp [hsince, huntil])⟩

theorem findInIndex_stored {fs : List Filter} (hs : ∀ f ∈ fs, f.ftSearch = [] ∧ f.Conditioned)
    (h : en.sets.Contains (en.findInIndex st.records fs) id) : ∃ ev, st.Has id ev := by
  obtain ⟨f, hf, hin⟩ := (contains_unite en).mp h
  exact selected_stored en st f (hs f hf).1 (hs f hf).2 hin

theorem findInIndex_not_inverted {fs : List Filter}
    (hs : ∀ f ∈ fs, f.ftSearch = [] ∧ f.Conditioned) :
    en.sets.inverted (en.findInIndex st.records fs) = false :=
  en.findInIndex_lists st.records (fun f hf => by simp [Filter.unrestricted, (hs f hf).2])

/-- The candidates of filters with a condition each are the stored events that the
indexes select. -/
theorem listed_findInIndex {fs : List Filter} (hs : ∀ f ∈ fs, f.ftSearch = [] ∧ f.Conditioned) :
    Listed (en.sets.items (en.findInIndex st.records fs)) id ↔
      ∃ ev, st.Has id ev ∧ ∃ f ∈ fs, f.Selects en.ext.hasher ev := by
  rw [← Calculator.contains_iff_listed en.sets (findInIndex_not_inverted en st hs)]
  constructor
  · intro h
    obtain ⟨ev, hev⟩ := findInIndex_stored en st hs h
    exact ⟨ev, hev, (contains_findInIndex en st (fun f hf => (hs f hf).1) hev).mp h⟩
  · rintro ⟨ev, hev, h⟩
    exact (contains_findInIndex en st (fun f hf => (hs f hf).1) hev).mpr h

end Engine

/-- Whatever the tag table of the event answers with has a row in the tag index. -/
def Event.TagsHaveRows (hasher : Str → UInt64) (ev : Event) : Prop :=
  ∀ t x, (ev.findIndexedTag hasher t x).isSome = true → ev.HasTagRow hasher t x

/-- Tag numbers that fit 16 bits leave nothing to doubt. -/
theorem Event.Indexed.tagsHaveRows {ev : Event} (hi : ev.Indexed hasher)
    (h16 : ev.tags.length ≤ 65535) :
    ev.TagsHaveRows hasher := by
  intro t x h
  obtain ⟨tr, htr⟩ := Option.isSome_iff_exists.mp h
  obtain ⟨hmem, hans⟩ := findIndexedTag_mem htr
  simp only [Tag.answers, Bool.and_eq_true, beq_iff_eq] at hans
  exact ⟨tr, hmem, hi.tableSound h16 t x tr htr, by rw [hans.2]⟩

theorem le_maxValue (t : Int64) : t ≤ Int64.maxValue := by
  rw [Int64.le_iff_toInt_le]
  have := t.toInt_lt
  have : Int64.maxValue.toInt = 2 ^ 63 - 1 := rfl
  omega

theorem Filter.Accepts.inTime {f : Filter} (h : f.Accepts hasher ev) (h0 : 0 ≤ ev.createdAt) :
    f.InTime ev := by
  constructor
  · cases hs : f.since with
    | none => simpa using h0
    | some s => simpa using h.since s hs
  · cases hu : f.untilTime with
    | none => exact le_maxValue ev.createdAt
    | some u => simpa using h.untilTime u hu

/-- The indexes select what the filter accepts, for an event whose time is not
negative and whose tags all have their rows. -/
theorem Filter.Accepts.selects {f : Filter} (h : f.Accepts hasher ev) (h0 : 0 ≤ ev.createdAt)
    (hr : ev.TagsHaveRows hasher) : f.Selects hasher ev := by
  have ht := h.inTime h0
  refine ⟨h.ids, fun hn => ?_, fun t htm => ?_, fun hn => ⟨h.kinds hn, ht⟩, fun _ _ => ht⟩
  · obtain ⟨a, ha, hc⟩ := h.authors hn
    exact ⟨a, ha, hc, fun _ => ht⟩
  · obtain ⟨c, hc, tr, htr⟩ := h.tags t htm
    exact ⟨c, hc, hr t.1 c (by simp [htr]), ht⟩

/-- The candidates cover every stored event some filter accepts, for all lists of
filters with a condition each, exactly when no stored event has a negative time and
all tags the tag tables answer with have their rows. -/
theorem find_in_index_covers_iff (en : Engine) (st : Store en.ext) :
    (∀ fs : List Filter, (∀ f ∈ fs, f.ftSearch = [] ∧ f.Conditioned) → ∀ id ev, st.Has id ev →
      (∃ f ∈ fs, f.test en.ext.hasher ev = true) →
      en.sets.Contains (en.findInIndex st.records fs) id) ↔
    ∀ id ev, st.Has id ev → 0 ≤ ev.createdAt ∧ ev.TagsHaveRows en.ext.hasher := by
  constructor
  · intro h id ev hev
    have single (f : Filter) (hs : f.ftSearch = []) (hc : f.Conditioned)
        (ht : f.test en.ext.hasher ev = true) :
        f.Selects en.ext.hasher ev := by
      have hin := h [f] (by simp [hs, hc]) id ev hev ⟨f, List.mem_singleton_self f, ht⟩
      simpa using (en.contains_findInIndex st (by simp [hs]) hev).mp hin
    constructor
    · have hsel := single { kinds := [ev.kind] } rfl (by simp [Filter.Conditioned])
        (by simp [Filter.test])
      simpa using (hsel.kinds (by simp)).2.1
    · intro t x hx
      have hsel := single { tags := [(t, [x])] } rfl (by simp [Filter.Conditioned])
        (by simp [Filter.test, Event.hasTag, Option.isSome_iff_ne_none.mp hx])
      obtain ⟨y, hy, hrow, _⟩ := hsel.tags (t, [x]) (by simp)
      rw [List.mem_singleton.mp hy] at hrow
      exact hrow
  · rintro h fs hfs id ev hev ⟨f, hf, ht⟩
    obtain ⟨h0, hr⟩ := h id ev hev
    rw [en.contains_findInIndex st (fun f hf => (hfs f hf).1) hev]
    exact ⟨f, hf, ((f.test_iff en.ext.hasher ev).mp ht).selects h0 hr⟩

def earlyNote : Event := Event.parsed
  { kind := 1, createdAt := -1
    id := .ofNat 0x0195dec61e158ade7759a30fa8f97f09045814624f1b1f0213b93875e9773ed2
    author := note.author
    sig := .ofNat 0x8f1c162b98a5503de629f932027970e89bfa6ef97c29c6dc1b819d61941f19b20a5e050b07ec4314d3a1f53bf30036f13d6fecc2e2f773b6ca17c51d7049dd74 }

def earlyStore (ext : External) (h : ext.hasher = fnv1a) : Store ext where
  records := [(1, .event earlyNote)]
  ids_nodup := by simp
  unique r hr r' hr' _ _ _ := by rw [List.mem_singleton.mp hr, List.mem_singleton.mp hr']
  indexed r hr ev he := by
    cases List.mem_singleton.mp hr
    cases he
    exact h ▸ rfl

/-- Without a lower bound on the time the scan starts at 0, and misses the note. -/
theorem early_note_missed :
    ¬ ∀ fs : List Filter, (∀ f ∈ fs, f.ftSearch = [] ∧ f.Conditioned) → ∀ id ev,
    (earlyStore (tabled [] [] []) rfl).Has id ev → (∃ f ∈ fs, f.test fnv1a ev = true) →
    (plainEngine (tabled [] [] [])).sets.Contains
      ((plainEngine (tabled [] [] [])).findInIndex (earlyStore (tabled [] [] []) rfl).records fs)
      id := by
  intro h
  have hin := h [{ kinds := [1] }] (by decide) 1 earlyNote (List.mem_singleton_self _)
    ⟨_, List.mem_singleton_self _, by decide +kernel⟩
  have hnone : (plainEngine (tabled [] [] [])).sets.items
      ((plainEngine (tabled [] [] [])).findInIndex
      (earlyStore (tabled [] [] []) rfl).records [{ kinds := [1] }]) = [] := by decide +kernel
  have hlisted := (Calculator.contains_iff_listed _ (by decide +kernel)).mp hin
  rw [hnone] at hlisted
  obtain ⟨v, hv⟩ := hlisted
  cases hv

end NostrServer
