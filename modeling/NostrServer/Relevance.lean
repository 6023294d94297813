import NostrServer.Newest

namespace NostrServer
open Docdb

variable {rl : Relay}

/-- How well a word of the event goes with a token it starts with: the relevance of the
word, and each letter left over, count against it. -/
def Event.Matches (ext : External) (ev : Event) (tk : WordToken) (r : Nat) : Prop :=
  ∃ row ∈ indexForFulltextFn ext (.event ev), tk.1.isPrefixOf row.1 = true ∧
    r = 256 / (row.2.toNat * (row.1.length - tk.1.length + 1))

/-- The greatest number of a list, 0 of none. -/
def greatest (l : List Nat) : Nat := l.max?.getD 0

theorem le_greatest (h : n ∈ l) : n ≤ greatest l := by
  cases hmax : l.max? with
  | none => simp_all
  | some m =>
    rw [greatest, hmax]
    exact (List.max?_eq_some_iff.mp hmax).2 n h

theorem greatest_le (h : ∀ n ∈ l, n ≤ m) : greatest l ≤ m := by
  cases hmax : l.max? with
  | none =>
    rw [greatest, hmax]
    exact Nat.zero_le m
  | some n =>
    rw [greatest, hmax]
    exact h n (List.max?_eq_some_iff.mp hmax).1

/-- The relevance of an event to a filter: the greatest that a word searched for gives it,
and none without a search text. -/
def Filter.relevance (ext : External) (kept : WordToken → Nat) (f : Filter) (ev : Event) : Nat :=
  if f.ftSearch = [] then 0
  else greatest (((tokenizeText ext f.ftSearch).filter (fun tk => ev.HasWord ext tk)).map kept)

/-- To a request: the greatest to the filters that find it. -/
def relevance (ext : External) (kept : WordToken → Nat) (fs : List Filter) (ev : Event) : Nat :=
  greatest ((fs.filter (fun f => f.Finds ext ev)).map (fun f => f.relevance ext kept ev))

namespace Engine
variable (en : Engine) (st : Store en.ext) {id : DocID} {ev : Event} (hev : st.Has id ev)
include hev

/-- What the calculator keeps for a word is how well a word of the event goes with it. -/
theorem kept_matches {tk : WordToken} (h : ev.HasWord en.ext tk) :
    ev.Matches en.ext tk (en.kept st.records id tk) := by
  have hin : Listed (en.sets.items (en.searchToken st.records tk)) id :=
    (en.sets.contains_iff_listed (en.pushRows_inverted _ _)).mp
      ((en.contains_searchToken st tk).mpr ⟨ev, hev, h⟩)
  obtain ⟨v, hv⟩ := hin
  have hkept : carried v = en.kept st.records id tk :=
    ((en.scores_searchToken st.records tk).greatest v hv).1
  rw [← hkept]
  obtain ⟨⟨key, i, value⟩, hrow, he⟩ := List.mem_map.mp (en.sets.push_value _ _ _ hv)
  obtain ⟨rfl, rfl⟩ := Prod.mk.inj he
  obtain ⟨hindex, hp⟩ := List.mem_filter.mp hrow
  obtain ⟨hlen, hrel⟩ := row_bounds hindex
  obtain ⟨d, hd, hkv⟩ := mem_indexRows.mp hindex
  cases same_record st.ids_nodup hd hev rfl
  exact ⟨(key, value), hkv, hp, ordering_product hlen hrel⟩

/-- A candidate carries its relevance to the request. -/
theorem findInIndex_relevance {fs : List Filter} (hasks : ∀ f ∈ fs, f.unrestricted = false)
    {v : OrderingItem} (h : (id, v) ∈ en.sets.items (en.findInIndex st.records fs)) :
    carried v = relevance en.ext (en.kept st.records id) fs ev := by
  have hscores := en.findInIndex_greatest st hev carried_merge hasks
    (en.scores_searchToken st.records) h
  apply Nat.le_antisymm
  · obtain ⟨f, hf, hfinds, hgives⟩ := hscores.1
    have hfilter : f.relevance en.ext (en.kept st.records id) ev ≤
        relevance en.ext (en.kept st.records id) fs ev :=
      le_greatest (List.mem_map_of_mem (List.mem_filter.mpr ⟨hf, decide_eq_true hfinds⟩))
    refine Nat.le_trans ?_ hfilter
    rcases hgives with ⟨hsearch, tk, htk, hword, he⟩ | ⟨-, he⟩ | ⟨-, he⟩
    · rw [Filter.relevance, if_neg hsearch, he]
      exact le_greatest (List.mem_map_of_mem (List.mem_filter.mpr ⟨htk, by simpa using hword⟩))
    · exact he ▸ Nat.zero_le _
    · exact he ▸ Nat.zero_le _
  · refine greatest_le (List.forall_mem_map.mpr (fun f hf => ?_))
    obtain ⟨hf, hfinds⟩ := List.mem_filter.mp hf
    have hfinds : f.Finds en.ext ev := by simpa using hfinds
    rw [Filter.relevance]
    split
    · exact Nat.zero_le _
    · rename_i hsearch
      refine greatest_le (List.forall_mem_map.mpr (fun tk htk => ?_))
      obtain ⟨htk, hword⟩ := List.mem_filter.mp htk
      exact hscores.2 ⟨f, hf, hfinds, Or.inl ⟨hsearch, tk, htk, by simpa using hword, rfl⟩⟩

end Engine

/-- What the calculator keeps for the words of a stored event. -/
def App.kept (a : App rl) (ev : Event) : WordToken → Nat :=
  rl.engine.kept a.records (a.findEventById ev.id)

end NostrServer
