import NostrServer.Search
import NostrServer.Reference

namespace NostrServer
open Docdb

variable {ext : External}

/-- A maximal run of alphanumeric characters. -/
structure WordOf (ext : External) (text w : List UInt32) : Prop where
  nonempty : w ≠ []
  alnum : ∀ c ∈ w, ext.isalnum c = true
  maximal : ∃ before after, text = before ++ (w ++ after) ∧
    (∀ c, before.getLast? = some c → ext.isalnum c = false) ∧ ∀ c, after.head? = some c →
    ext.isalnum c = false

theorem splitWords_run (h : ∀ c ∈ w, ext.isalnum c = true) (word rest : List UInt32) :
    splitWords ext word (w ++ rest) = splitWords ext (word ++ w.map ext.tolower) rest := by
  induction w generalizing word with
  | nil => simp
  | cons c w ih =>
    simp only [List.cons_append, splitWords, h c List.mem_cons_self, ↓reduceIte]
    rw [ih (fun d hd => h d (List.mem_cons_of_mem _ hd))]
    simp

/-- A character that is not alphanumeric parts the words before it from those after. -/
theorem splitWords_boundary (h : ext.isalnum c = false) (word pre rest : List UInt32) :
    splitWords ext word (pre ++ c :: rest) = splitWords ext word pre ++ splitWords ext [] rest := by
  induction pre generalizing word with
  | nil => simp [splitWords, h]
  | cons d pre ih =>
    simp only [List.cons_append, splitWords]
    split
    · exact ih _
    · rw [ih, List.append_assoc]

/-- Every maximal run is one of the words, in lower case. -/
theorem WordOf.mem_splitWords (h : WordOf ext text w) :
    w.map ext.tolower ∈ splitWords ext [] text := by
  obtain ⟨before, after, rfl, hbefore, hafter⟩ := h.maximal
  have hword : w.map ext.tolower ∈ splitWords ext [] (w ++ after) := by
    have hflush : w.map ext.tolower ∈ flushWord (w.map ext.tolower) := by
      simp [flushWord, h.nonempty]
    rw [splitWords_run h.alnum, List.nil_append]
    cases after with
    | nil => exact hflush
    | cons c after =>
      simp only [splitWords, hafter c rfl, Bool.false_eq_true, ↓reduceIte]
      exact List.mem_append_left _ hflush
  rcases List.eq_nil_or_concat before with rfl | ⟨before, c, rfl⟩
  · exact hword
  · rw [List.concat_eq_append, List.append_assoc, List.singleton_append,
      splitWords_boundary (hbefore c (by simp))]
    exact List.mem_append_right _ hword

theorem mem_removeRepeated (last : WordToken) (h : x ∈ rest) :
    ∃ y ∈ last :: removeRepeated last rest, y.1 = x.1 := by
  induction rest generalizing last with
  | nil => cases h
  | cons y rest ih =>
    simp only [removeRepeated]
    split
    · rcases List.mem_cons.mp h with rfl | h
      · exact ⟨x, by simp, rfl⟩
      · obtain ⟨z, hz, he⟩ := ih y h
        exact ⟨z, List.mem_cons_of_mem _ hz, he⟩
    · rename_i hsame
      rcases List.mem_cons.mp h with rfl | h
      · exact ⟨last, List.mem_cons_self, (Classical.not_not.mp hsame).symm⟩
      · exact ih last h

theorem removeRepeated_sublist (last : WordToken) (rest : List WordToken) :
    (removeRepeated last rest).Sublist rest := by
  induction rest generalizing last with
  | nil => exact List.Sublist.slnil
  | cons y rest ih =>
    simp only [removeRepeated]
    split
    · exact (ih y).cons_cons y
    · exact (ih last).cons y

def wordVariants (ext : External) (text : Str) : List (List UInt32 × UInt32) :=
  (splitWords ext [] (ext.wideChars text)).flatMap (unacWord ext · 1)

theorem mem_tokenizeText (h : tk ∈ tokenizeText ext text) :
    ∃ w ∈ wordVariants ext text, tk = wordToken ext w := by
  have hperm := List.mergeSort_perm ((wordVariants ext text).map (wordToken ext)) tokenLe
  have hmem : tk ∈ (wordVariants ext text).map (wordToken ext) := by
    unfold tokenizeText at h
    dsimp only at h
    rw [← hperm.mem_iff]
    split at h
    · cases h
    · rename_i t rest hsorted
      rw [wordVariants, hsorted]
      exact List.cons_subset_cons t (removeRepeated_sublist t rest).subset h
  obtain ⟨w, hw, he⟩ := List.mem_map.mp hmem
  exact ⟨w, hw, he.symm⟩

/-- No word gets lost among the repeated ones. -/
theorem tokenizeText_covers (h : w ∈ wordVariants ext text) :
    ∃ tk ∈ tokenizeText ext text, tk.1 = (wordToken ext w).1 := by
  have hperm := List.mergeSort_perm ((wordVariants ext text).map (wordToken ext)) tokenLe
  have hmem := hperm.mem_iff.mpr (List.mem_map_of_mem h)
  unfold tokenizeText
  dsimp only
  split
  · rename_i hnil
    rw [wordVariants, hnil] at hmem
    cases hmem
  · rename_i t rest hsorted
    rw [wordVariants, hsorted] at hmem
    rcases List.mem_cons.mp hmem with he | hrest
    · exact ⟨t, List.mem_cons_self, by rw [← he]⟩
    · exact mem_removeRepeated _ hrest

def loweredUtf8 (ext : External) (w : List UInt32) : Str :=
  (w.map ext.tolower).flatMap ext.wcharToUtf8

/-- Each maximal run of a text is among its tokens, cut to 15 bytes. -/
theorem WordOf.mem_tokens (h : WordOf ext (ext.wideChars text) w) :
    ∃ tk ∈ tokenizeText ext text, tk.1 = (loweredUtf8 ext w).take 15 := by
  have hvariant : (w.map ext.tolower, 1) ∈ wordVariants ext text :=
    List.mem_flatMap.mpr ⟨_, h.mem_splitWords, List.mem_cons_self⟩
  exact tokenizeText_covers hvariant

def Event.fulltexts (ev : Event) : List Str :=
  (if ev.kind = Kind.metadata ∨ ev.kind = Kind.shortTextNote ∨ ev.kind = Kind.recommendRelay ∨
      ev.kind = Kind.longFormContent then [ev.content] else []) ++
    (ev.tags.filter (fun t => [str "description", str "name", str "subject", str "summary",
      str "title"].contains t.tag)).map Tag.content

theorem mem_indexForFulltext {ev : Event} : row ∈ indexForFulltextFn ext (.event ev) ↔
    ∃ text ∈ ev.fulltexts, row ∈ tokenizeText ext text ∧ 1 < row.1.length := by
  simp only [indexForFulltextFn, Event.fulltexts, List.mem_append, List.mem_flatMap, List.mem_map,
    List.mem_filter, List.contains_iff_mem, decide_eq_true_eq]
  constructor
  · rintro (h | ⟨t, ht, h⟩)
    · split at h
      · rename_i hkind
        exact ⟨ev.content, Or.inl (by simp [hkind]), by simpa using h⟩
      · cases h
    · exact ⟨t.content, Or.inr ⟨t, ht, rfl⟩, by simpa using h⟩
  · rintro ⟨text, htext | ⟨t, ht, rfl⟩, h⟩
    · split at htext
      · rename_i hkind
        rw [List.mem_singleton.mp htext] at h
        exact Or.inl (by simpa [hkind] using h)
      · cases htext
    · exact Or.inr ⟨t, ht, by simpa using h⟩

theorem loweredUtf8_grows (h : q <+: w) : loweredUtf8 ext q <+: loweredUtf8 ext w := by
  obtain ⟨rest, rfl⟩ := h
  exact ⟨loweredUtf8 ext rest, by simp [loweredUtf8]⟩

namespace Engine
variable (en : Engine) {rs : Records EventOrAttachment} {id : DocID}

/-- The set the search text leaves on the stack. -/
def searchText (rs : Records EventOrAttachment) (text : Str) : en.sets.Set :=
  en.sets.and mergeRelevance en.sets.all (en.unite (en.searchToken rs) (tokenizeText en.ext text))

/-- A search text alone: the indexes are asked for it and for nothing else. -/
theorem findInIndex_search (text : Str) (h : en.sets.Contains (en.searchText rs text) id) :
    en.sets.Contains (en.findInIndex rs [{ ftSearch := text }]) id := by
  have hfilter : en.sets.Contains (en.filterSet rs { ftSearch := text }) id := by
    simp only [filterSet, Filter.needTime, List.isEmpty_nil, List.all_nil, List.foldl_nil,
      Option.isSome_none, Bool.or_self, Bool.and_false, Bool.not_true, Bool.false_and,
      Bool.false_eq_true, ↓reduceIte, ite_self]
    split
    · exact Calculator.contains_all en.sets
    · exact h
  simp [findInIndex, unite, hfilter]

/-- Each token of the search text finds the rows whose key it starts. -/
theorem contains_token {ev : Event} (hev : (id, .event ev) ∈ rs)
    (hrow : row ∈ indexForFulltextFn en.ext (.event ev)) (hp : tk.1 <+: row.1) :
    en.sets.Contains (en.searchToken rs tk) id := by
  rw [searchToken, pushRows, Calculator.contains_push]
  have hmem : (⟨row.1, id, row.2⟩ : Row UInt8) ∈ (indexRows (indexForFulltextFn en.ext) rs).filter
      (fun row => tk.1.isPrefixOf row.key) :=
    List.mem_filter.mpr ⟨mem_indexRows.mpr ⟨_, hev, hrow⟩, List.isPrefixOf_iff_prefix.mpr hp⟩
  exact ⟨_, List.mem_map.mpr ⟨_, hmem, rfl⟩⟩

/-- Whatever leading part of an indexed word is searched for, the event is found. -/
theorem search_finds_word (rs : Records EventOrAttachment) (id : DocID) (ev : Event)
    (hev : (id, .event ev) ∈ rs) (text : Str) (htext : text ∈ ev.fulltexts) (w q : List UInt32)
    (hw : WordOf en.ext (en.ext.wideChars text) w) (hbytes : 2 ≤ (loweredUtf8 en.ext w).length)
    (search : Str) (hsearch : en.ext.wideChars search = q) (hq : q <+: w) (hne : q ≠ []) :
    en.sets.Contains (en.searchText rs search) id ∧
      en.sets.Contains (en.findInIndex rs [{ ftSearch := search }]) id := by
  have hwhole : WordOf en.ext (en.ext.wideChars search) q :=
    ⟨hne, fun c hc => hw.alnum c (hq.subset hc), [], [], by simp [hsearch], by simp, by simp⟩
  obtain ⟨tk, htk, hkey⟩ := hwhole.mem_tokens
  obtain ⟨row, hrow, hrowKey⟩ := hw.mem_tokens
  have hlong : 1 < row.1.length := by
    rw [hrowKey, List.length_take]
    omega
  have hprefix : tk.1 <+: row.1 := by
    rw [hkey, hrowKey]
    exact List.prefix_take_iff.mpr ⟨(List.take_prefix 15 _).trans (loweredUtf8_grows hq),
      List.length_take_le 15 _⟩
  have hfound : en.sets.Contains (en.searchText rs search) id := by
    rw [searchText, Calculator.contains_and, unite, Calculator.contains_foldl_or]
    have htoken := en.contains_token hev
      (mem_indexForFulltext.mpr ⟨text, htext, hrow, hlong⟩) hprefix
    exact ⟨Calculator.contains_all en.sets, Or.inr ⟨tk, htk, htoken⟩⟩
  exact ⟨hfound, en.findInIndex_search search hfound⟩

end Engine

/-- A subject with a long word, and a search for its first 16 letters. -/
def subjected : Event := Event.parsed
  { kind := 5000, tags := [⟨str "subject", str "Incomprehensibilities", []⟩]
    id := .ofNat 1, author := .ofNat 2, sig := .ofNat 3 }

theorem subjected_found : (plainEngine (tabled [] [] [])).sets.Contains
    ((plainEngine (tabled [] [] [])).findInIndex [(1, .event subjected)]
      [{ ftSearch := str "Incomprehensibil" }]) 1 :=
  ((plainEngine (tabled [] [] [])).search_finds_word [(1, .event subjected)] 1 subjected
    (List.mem_singleton_self _)
    (str "Incomprehensibilities") (by decide) ((str "Incomprehensibilities").map UInt8.toUInt32)
    ((str "Incomprehensibil").map UInt8.toUInt32)
    ⟨by decide, List.all_eq_true.mp (by decide +kernel), [], [],
      by decide +kernel, by simp, by simp⟩
    (by decide) (str "Incomprehensibil") (by decide) (by decide) (by decide)).2

/-- Every token is at most 15 bytes and of relevance one or two. -/
theorem token_bounds (h : tk ∈ tokenizeText ext text) :
    tk.1.length ≤ 15 ∧ (tk.2 = 1 ∨ tk.2 = 2) := by
  obtain ⟨w, hw, rfl⟩ := mem_tokenizeText h
  obtain ⟨word, _, hw⟩ := List.mem_flatMap.mp hw
  have hrelevance : w.2 = 1 ∨ w.2 = 1 * 2 := by
    rcases List.mem_cons.mp hw with rfl | hunaced
    · exact Or.inl rfl
    · split at hunaced
      · rw [List.mem_singleton.mp hunaced]
        exact Or.inr rfl
      · cases hunaced
  refine ⟨by simp [wordToken, List.length_take], ?_⟩
  rcases hrelevance with he | he <;> rw [wordToken, he]
  · exact Or.inl rfl
  · exact Or.inr rfl

/-- The rows of the index carry tokens. -/
theorem row_bounds {rs : Records EventOrAttachment}
    (h : row ∈ indexRows (indexForFulltextFn ext) rs) :
    row.key.length ≤ 15 ∧ (row.value = 1 ∨ row.value = 2) := by
  obtain ⟨d, _, hrow⟩ := mem_indexRows.mp h
  cases d with
  | attachment att => cases hrow
  | event ev =>
    obtain ⟨text, _, htoken, _⟩ := mem_indexForFulltext.mp hrow
    exact token_bounds htoken

/-- The product of `fulltext_relevance_ordering`, in the numbers it stands for. -/
def relevanceProduct (word : Str) (row : Row UInt8) : Nat :=
  row.value.toNat * (row.key.length - word.length + 1)

/-- Within those bounds the product fits its byte. -/
theorem product_fits (word : Str) {row : Row UInt8} (hlen : row.key.length ≤ 15)
    (hrel : row.value = 1 ∨ row.value = 2) :
    0 < relevanceProduct word row ∧ relevanceProduct word row < 256 ∧
      (row.value * UInt8.ofNat (row.key.length - word.length + 1)).toNat =
        relevanceProduct word row := by
  unfold relevanceProduct
  rw [UInt8.toNat_mul, UInt8.toNat_ofNat']
  rcases hrel with he | he <;> rw [he] <;> refine ⟨?_, ?_, ?_⟩ <;> simp <;> omega

theorem ordering_product {word : Str} {row : Row UInt8} (hlen : row.key.length ≤ 15)
    (hrel : row.value = 1 ∨ row.value = 2) :
    (fulltextRelevanceOrdering word row.key row.value).1.toNat =
      256 / relevanceProduct word row := by
  obtain ⟨_, hlt, hprod⟩ := product_fits word hlen hrel
  simp only [fulltextRelevanceOrdering, UInt32.toNat_div, UInt8.toNat_toUInt32, hprod]
  rfl

/-- The division of `fulltext_relevance_ordering` is defined on every row that starts with
a word, and of two rows of one relevance the longer key does not come first. -/
theorem relevance_never_zero (ext : External) (word : Str) (rs : Records EventOrAttachment)
    (row : Row UInt8) (hrow : row ∈ indexRows (indexForFulltextFn ext) rs) (hp : word <+: row.key) :
    0 < relevanceProduct word row ∧
    (row.value * UInt8.ofNat (row.key.length - word.length + 1)).toNat = relevanceProduct word row ∧
    (fulltextRelevanceOrdering word row.key row.value).1.toNat = 256 / relevanceProduct word row ∧
    ∀ row' ∈ indexRows (indexForFulltextFn ext) rs, word <+: row'.key → row'.value = row.value →
      row.key.length < row'.key.length → relevanceProduct word row < relevanceProduct word row' ∧
        orderingLt (fulltextRelevanceOrdering word row.key row.value)
          (fulltextRelevanceOrdering word row'.key row'.value) = false := by
  obtain ⟨hlen, hrel⟩ := row_bounds hrow
  obtain ⟨hpos, hlt, hprod⟩ := product_fits word hlen hrel
  refine ⟨hpos, hprod, ordering_product hlen hrel, fun row' hrow' hp' hsame hlonger => ?_⟩
  obtain ⟨hlen', hrel'⟩ := row_bounds hrow'
  have hvalue : 0 < row.value.toNat := by rcases hrel with he | he <;> rw [he] <;> decide
  have hgrows : relevanceProduct word row < relevanceProduct word row' := by
    have := hp.length_le
    rw [relevanceProduct, relevanceProduct, hsame]
    exact Nat.mul_lt_mul_of_pos_left (by omega) hvalue
  refine ⟨hgrows, ?_⟩
  have hle : (fulltextRelevanceOrdering word row'.key row'.value).1 ≤
      (fulltextRelevanceOrdering word row.key row.value).1 := by
    rw [UInt32.le_iff_toNat_le, ordering_product hlen hrel, ordering_product hlen' hrel']
    exact Nat.div_le_div_left (Nat.le_of_lt hgrows) hpos
  have hsecond : (fulltextRelevanceOrdering word row'.key row'.value).2 =
      (fulltextRelevanceOrdering word row.key row.value).2 := rfl
  simp [orderingLt, UInt32.not_lt.mpr hle, hsecond]

theorem subjected_ranked : 0 < relevanceProduct (str "incompr") ⟨str "incomprehensibi", 1, 1⟩ ∧
    (fulltextRelevanceOrdering (str "incompr") (str "incomprehensibi") 1).1.toNat = 28 := by
  have htoken : tokenizeText (tabled [] [] []) (str "Incomprehensibilities") =
      [(str "incomprehensibi", 1)] :=
    tokenizeText_single (by decide +kernel)
  have hrow : (⟨str "incomprehensibi", 1, 1⟩ : Row UInt8) ∈
      indexRows (indexForFulltextFn (tabled [] [] [])) [(1, .event subjected)] :=
    mem_indexRows.mpr ⟨.event subjected, List.mem_singleton_self _,
      mem_indexForFulltext.mpr
        ⟨str "Incomprehensibilities", by decide, by rw [htoken]; decide, by decide⟩⟩
  obtain ⟨hpos, _, hrank, _⟩ :=
    relevance_never_zero (tabled [] [] []) (str "incompr") [(1, .event subjected)] _
      hrow (by decide)
  exact ⟨hpos, hrank.trans (by decide)⟩

end NostrServer
