import NostrServer.Selection
import NostrServer.Reference

namespace NostrServer
open Docdb

variable {ext : External}

/-- The two lists of a filter that hold prefixes. -/
inductive PrefixList where
  | ids | authors

namespace PrefixList

def name : PrefixList → Str
  | ids => str "ids"
  | authors => str "authors"

def entries : PrefixList → Filter → List ShortenID
  | ids, f => f.ids
  | authors, f => f.authors

def without : PrefixList → Filter → Filter
  | ids, f => { f with ids := [] }
  | authors, f => { f with authors := [] }

def key : PrefixList → Event → Binary 32
  | ids, doc => doc.id
  | authors, doc => doc.author

end PrefixList

/-- The texts of the list, as a filter's JSON gives them. -/
def Structured.textsUnder (ext : External) (w : PrefixList) (f : Structured) : List Str :=
  (f.keypairs.filter (fun kv => kv.1 = w.name)).flatMap
    (fun kv => kv.2.items.filterMap ext.asStringView)

def pairs (s : Str) : Nat := min 32 (s.length / 2)

/-- The bytes the first pairs spell are the leading bytes of the key. -/
def Leads (s key : Str) : Prop := (spelled s).take (pairs s) = key.take (pairs s)

/-- What `Filter::create` makes of a text: an array, and a length that went through a byte. -/
def EntryOf (a : ShortenID) (s : Str) : Prop :=
  (∃ u, a.value = fromHex u s) ∧ a.count = min 32 (s.length / 2 % 256)

theorem shortenID_entry (h : shortenID ext u c = some a) :
    ∃ s, ext.asStringView c = some s ∧ EntryOf a s := by
  obtain ⟨s, hs, rfl⟩ := Option.map_eq_some_iff.mp h
  exact ⟨s, hs, ⟨u, rfl⟩, rfl⟩

theorem shortenIDs_entries {mem : Nat → Binary 32} {v : Structured}
    (h : shortenIDs ext mem v = some as) :
    List.Forall₂ EntryOf as (v.items.filterMap ext.asStringView) := by
  unfold shortenIDs at h
  generalize v.items = items at h
  suffices ∀ n, (items.zipIdx n).mapM (fun c => shortenID ext (mem c.2) c.1) = some as →
      List.Forall₂ EntryOf as (items.filterMap ext.asStringView) from this 0 h
  clear h
  induction items generalizing as with
  | nil =>
    intro n h
    simp only [List.zipIdx_nil, List.mapM_nil] at h
    cases h
    exact List.Forall₂.nil
  | cons c items ih =>
    intro n h
    simp only [List.zipIdx_cons, List.mapM_cons, Option.bind_eq_bind, Option.bind_eq_some_iff] at h
    obtain ⟨a, ha, rest, hrest, he⟩ := h
    cases he
    obtain ⟨s, hs, hentry⟩ := shortenID_entry ha
    rw [List.filterMap_cons, hs]
    exact List.Forall₂.cons hentry (ih _ hrest)

/-- One key of the JSON adds its texts to the list, or leaves the list as it was. -/
theorem createField_entries (w : PrefixList) {mem : Nat → Binary 32} {out out' : Filter}
    (h : createField ext mem out k v = some out') : ∃ new, w.entries out' = w.entries out ++ new ∧
      List.Forall₂ EntryOf new (if k = w.name then v.items.filterMap ext.asStringView else []) := by
  have hne : str "authors" ≠ str "ids" := by decide
  have hkeep (he : w.entries out' = w.entries out) (hk : k ≠ w.name) :
      ∃ new, w.entries out' = w.entries out ++ new ∧
      List.Forall₂ EntryOf new (if k = w.name then v.items.filterMap ext.asStringView else []) :=
    ⟨[], by simp [he], by simp [hk]⟩
  unfold createField at h
  split at h
  · rename_i hk
    obtain ⟨as, has, rfl⟩ := Option.map_eq_some_iff.mp h
    cases w with
    | ids => exact hkeep rfl (by rw [hk]; exact hne)
    | authors => exact ⟨as, rfl, by simpa [hk, PrefixList.name] using shortenIDs_entries has⟩
  rename_i hauthors
  split at h
  · rename_i hk
    obtain ⟨as, has, rfl⟩ := Option.map_eq_some_iff.mp h
    cases w with
    | ids => exact ⟨as, rfl, by simpa [hk, PrefixList.name] using shortenIDs_entries has⟩
    | authors => exact hkeep rfl hauthors
  rename_i hids
  have hk : k ≠ w.name := by cases w <;> assumption
  -- the other keys change other fields
  suffices he : w.entries out' = w.entries out from hkeep he hk
  repeat' split at h
  all_goals first
    | cases h; rfl
    | (obtain ⟨x, _, rfl⟩ := Option.map_eq_some_iff.mp h; cases w <;> rfl)

/-- The filter's list holds an entry for each text, in order. -/
theorem create_entries (w : PrefixList) {mem : Nat → Nat → Binary 32} {flt : Filter}
    (h : Filter.create ext mem f = some flt) :
    List.Forall₂ EntryOf (w.entries flt) (f.textsUnder ext w) := by
  obtain ⟨filled, hfold, rfl⟩ := Option.map_eq_some_iff.mp h
  have hsame : w.entries { filled with tags := filled.tags.insertionSort (fun a b => tagLe a b) } =
    w.entries filled := by
    cases w <;> rfl
  have hempty : w.entries {} = [] := by cases w <;> rfl
  rw [hsame, Structured.textsUnder]
  clear h hsame
  generalize f.keypairs = kvs at *
  suffices hgen : ∀ n out,
      (kvs.zipIdx n).foldlM (fun out kv => createField ext (mem kv.2) out kv.1.1 kv.1.2) out =
        some filled →
      ∃ new, w.entries filled = w.entries out ++ new ∧ List.Forall₂ EntryOf new
        ((kvs.filter (fun kv => kv.1 = w.name)).flatMap
          (fun kv => kv.2.items.filterMap ext.asStringView)) by
    obtain ⟨new, he, hnew⟩ := hgen 0 {} hfold
    rwa [he, hempty, List.nil_append]
  clear hfold
  induction kvs with
  | nil =>
    intro n out hfold
    cases hfold
    exact ⟨[], by simp, List.Forall₂.nil⟩
  | cons kv kvs ih =>
    intro n out hfold
    simp only [List.zipIdx_cons, List.foldlM_cons, Option.bind_eq_bind,
      Option.bind_eq_some_iff] at hfold
    obtain ⟨out', hfield, hrest⟩ := hfold
    obtain ⟨new, he, hnew⟩ := createField_entries w hfield
    obtain ⟨more, he', hmore⟩ := ih (n + 1) out' hrest
    refine ⟨new ++ more, by rw [he', he, List.append_assoc], ?_⟩
    by_cases hk : kv.1 = w.name
    · simpa [hk] using List.rel_append hnew hmore
    · simp only [hk, ↓reduceIte, List.forall₂_nil_right_iff] at hnew
      simpa [hk, hnew] using hmore

theorem spelled_digits (h : s.all isHexDigit = true) : (spelled s).length = s.length / 2 := by
  induction s using spelled.induct with
  | case1 a b rest ha =>
    simp only [List.all_cons, Bool.and_eq_true] at h
    exact absurd ha (UInt8.not_lt.mpr (digit_letter a h.1).1)
  | case2 a b rest _ hb =>
    simp only [List.all_cons, Bool.and_eq_true] at h
    exact absurd hb (UInt8.not_lt.mpr (digit_letter b h.2.1).1)
  | case3 a b rest ha hb ih =>
    simp only [List.all_cons, Bool.and_eq_true] at h
    simp only [spelled, ha, hb, ↓reduceIte, List.length_cons, ih h.2.2]
    omega
  | case4 t ht =>
    rcases t with _ | ⟨a, _ | ⟨b, rest⟩⟩
    · rfl
    · simp [spelled]
    · exact absurd rfl (ht a b rest)

/-- The length that went through a byte is the one the text asks for. -/
def LengthKept (s : Str) : Prop := s.length / 2 < 32 ∨ 32 ≤ s.length / 2 % 256

instance (s : Str) : Decidable (LengthKept s) := inferInstanceAs (Decidable (_ ∨ _))

theorem lengthKept_iff (s : Str) : LengthKept s ↔ min 32 (s.length / 2 % 256) = pairs s := by
  unfold LengthKept pairs
  omega

theorem EntryOf.count_le (he : EntryOf a s) : a.count ≤ pairs s := by
  rw [he.2, pairs]
  have := Nat.mod_le (s.length / 2) 256
  omega

/-- An entry compares the bytes its text spells. -/
theorem EntryOf.compares (he : EntryOf a s) (h : s.all isHexDigit = true) (v : Binary 32) :
    a.cmpShorten v = true ↔ (spelled s).take a.count = v.bytes.take a.count := by
  obtain ⟨u, hu⟩ := he.1
  have hle := he.count_le
  have hlen := spelled_digits h
  have hwritten : a.value.bytes.take a.count = (spelled s).take a.count := by
    rw [hu, fromHex_bytes, List.take_append_of_le_length
      (by rw [List.length_take, hlen]; exact hle), List.take_take, Nat.min_eq_left a.bound]
  rw [ShortenID.cmpShorten, beq_iff_eq, hwritten]

theorem EntryOf.leads (he : EntryOf a s) (h : s.all isHexDigit = true) (hk : LengthKept s)
    (v : Binary 32) :
    a.cmpShorten v = true ↔ Leads s v.bytes := by
  have hcount : a.count = pairs s := he.2.trans ((lengthKept_iff s).mp hk)
  rw [he.compares h, hcount, Leads]

/-- A length that wrapped around lets keys in that the text does not lead. -/
theorem EntryOf.wrapped (he : EntryOf a s) (h : s.all isHexDigit = true) (hk : ¬ LengthKept s) :
    ∃ v : Binary 32, a.cmpShorten v = true ∧ ¬ Leads s v.bytes := by
  have hlt : a.count < pairs s := by
    have := he.count_le
    have hne : a.count ≠ pairs s := fun heq => hk ((lengthKept_iff s).mpr (he.2.symm.trans heq))
    omega
  have hpairs : pairs s ≤ 32 ∧ pairs s ≤ (spelled s).length := by
    rw [spelled_digits h, pairs]
    omega
  have hin : a.count < (spelled s).length := by omega
  have hsize : a.count < a.value.bytes.length := by
    rw [a.value.size]
    omega
  have hother : (spelled s)[a.count] + 1 ≠ (spelled s)[a.count] := by simp
  refine ⟨⟨a.value.bytes.set a.count ((spelled s)[a.count] + 1),
    by rw [List.length_set]; exact a.value.size⟩, ?_, ?_⟩
  · simp [ShortenID.cmpShorten, List.take_set_of_le]
  · intro hleads
    have hat := congrArg (fun l => l[a.count]?) hleads
    simp only [List.getElem?_take, hlt, ↓reduceIte, List.getElem?_set_self hsize] at hat
    rw [List.getElem?_eq_getElem hin] at hat
    exact hother (Option.some.inj hat).symm

/-- A range of keys of 32 bytes holds those the entry compares equal. -/
theorem mem_searchShortenID {rows : List (Row V)} (row : Row V) (hl : row.key.length = 32) :
    row ∈ Engine.searchShortenID rows a ↔
    row ∈ rows ∧ a.cmpShorten ⟨row.key, hl⟩ = true := by
  rw [Engine.searchShortenID, selectBetween, List.mem_filter]
  apply and_congr_right
  intro _
  simpa using between_shorten (a := a) (v := ⟨row.key, hl⟩) []

/-- `Filter::test` is the condition on the list and all the others. -/
theorem PrefixList.test_iff (w : PrefixList) (hasher : Str → UInt64) (f : Filter) (doc : Event) :
    f.test hasher doc = true ↔
    (w.without f).test hasher doc = true ∧
    (w.entries f ≠ [] → ∃ a ∈ w.entries f, a.cmpShorten (w.key doc) = true) := by
  rw [Filter.test_iff, Filter.test_iff]
  cases w with
  | ids =>
    constructor
    · intro h
      exact ⟨⟨h.authors, fun hn => absurd rfl hn, h.kinds, h.tags, h.since, h.untilTime⟩, h.ids⟩
    · rintro ⟨h, hids⟩
      exact ⟨h.authors, hids, h.kinds, h.tags, h.since, h.untilTime⟩
  | authors =>
    constructor
    · intro h
      exact ⟨⟨fun hn => absurd rfl hn, h.ids, h.kinds, h.tags, h.since, h.untilTime⟩, h.authors⟩
    · rintro ⟨h, hauthors⟩
      exact ⟨hauthors, h.ids, h.kinds, h.tags, h.since, h.untilTime⟩

/-- The filter takes the texts of the list as prefixes: it passes what one of them leads,
as far as its other conditions do, and each entry's range holds the keys its text leads. -/
structure PrefixesExact (w : PrefixList) (flt : Filter) (texts : List Str) : Prop where
  test : ∀ hasher doc, flt.test hasher doc = true ↔
    (w.without flt).test hasher doc = true ∧ (texts ≠ [] → ∃ s ∈ texts, Leads s (w.key doc).bytes)
  range : List.Forall₂ (fun a s => ∀ (rows : List (Row Int64)) (row : Row Int64),
    row.key.length = 32 →
    (row ∈ Engine.searchShortenID rows a ↔ row ∈ rows ∧ Leads s row.key)) (w.entries flt) texts

theorem exists_paired {P : α → Prop} {Q : β → Prop}
    (h : List.Forall₂ (fun a b => P a ↔ Q b) as bs) :
    (∃ a ∈ as, P a) ↔ ∃ b ∈ bs, Q b := by
  induction h with
  | nil => simp
  | cons hab _ ih => simp [hab, ih]

theorem prefixes_exact {w : PrefixList} (he : List.Forall₂ EntryOf (w.entries flt) texts)
    (hhex : ∀ s ∈ texts, s.all isHexDigit = true) (hk : ∀ s ∈ texts, LengthKept s) :
    PrefixesExact w flt texts := by
  obtain ⟨hlen, hzip⟩ := List.forall₂_iff_zip.mp he
  have hpair {a : ShortenID} {s : Str} (hm : (a, s) ∈ (w.entries flt).zip texts) (v : Binary 32) :
      a.cmpShorten v = true ↔ Leads s v.bytes :=
    have hs := (List.of_mem_zip hm).2
    (hzip hm).leads (hhex s hs) (hk s hs) v
  constructor
  · intro hasher doc
    have hempty : w.entries flt ≠ [] ↔ texts ≠ [] := by
      rw [← List.length_pos_iff, ← List.length_pos_iff, hlen]
    rw [w.test_iff, hempty]
    refine and_congr_right (fun _ => imp_congr_right (fun _ => exists_paired ?_))
    exact List.forall₂_iff_zip.mpr ⟨hlen, fun hm => hpair hm (w.key doc)⟩
  · refine List.forall₂_iff_zip.mpr ⟨hlen, fun hm rows row hl => ?_⟩
    rw [mem_searchShortenID row hl]
    exact and_congr_right (fun _ => hpair hm ⟨row.key, hl⟩)

/-- One length that wraps around is enough for a range to hold too much. -/
theorem prefixes_inexact {w : PrefixList} (he : List.Forall₂ EntryOf (w.entries flt) texts)
    (hhex : ∀ s ∈ texts, s.all isHexDigit = true) (hs : s ∈ texts) (hk : ¬ LengthKept s) :
    ¬ PrefixesExact w flt texts := by
  intro hexact
  obtain ⟨i, hi, rfl⟩ := List.mem_iff_getElem.mp hs
  have hlen := he.length_eq
  have hentry := he.get (by omega) hi
  have hrange := hexact.range.get (by omega) hi
  obtain ⟨v, hin, hout⟩ := hentry.wrapped (hhex _ hs) hk
  have hrow := (hrange [⟨v.bytes, 0, 0⟩] ⟨v.bytes, 0, 0⟩ v.size).mp
    ((mem_searchShortenID ⟨v.bytes, 0, 0⟩ v.size).mpr ⟨List.mem_singleton_self _, hin⟩)
  exact hout hrow.2

/-- The prefixes of a filter's list are matched exactly when each text is as long as the
byte its length goes through can say. -/
theorem prefixes_exact_iff (w : PrefixList) (mem : Nat → Nat → Binary 32) (f : Structured)
    (flt : Filter) (h : Filter.create ext mem f = some flt)
    (hhex : ∀ s ∈ f.textsUnder ext w, s.all isHexDigit = true) :
    PrefixesExact w flt (f.textsUnder ext w) ↔ ∀ s ∈ f.textsUnder ext w, s.length / 2 < 32 ∨
    32 ≤ s.length / 2 % 256 := by
  constructor
  · intro hexact s hs
    by_contra hk
    exact prefixes_inexact (create_entries w h) hhex hs hk hexact
  · exact prefixes_exact (create_entries w h) hhex

def longIds : Structured := .object [(str "ids", .array [.string (List.replicate 512 97)])]

/-- An id prefix of 512 digits selects every event. -/
theorem longIds_all : ∃ flt,
    Filter.create (tabled [] [] []) (fun _ _ => .ofNat 0) longIds = some flt ∧
    flt.test fnv1a note = true ∧
    ¬ PrefixesExact .ids flt (longIds.textsUnder (tabled [] [] []) .ids) := by
  have htexts : longIds.textsUnder (tabled [] [] []) .ids = [List.replicate 512 97] := by
    decide +kernel
  obtain ⟨flt, hflt⟩ : ∃ flt,
      Filter.create (tabled [] [] []) (fun _ _ => .ofNat 0) longIds = some flt :=
    Option.isSome_iff_exists.mp (by decide +kernel)
  have hpasses : (Filter.create (tabled [] [] []) (fun _ _ => .ofNat 0) longIds).all
      (fun flt => flt.test fnv1a note) = true := by
    decide +kernel
  rw [hflt] at hpasses
  refine ⟨flt, hflt, hpasses, ?_⟩
  refine prefixes_inexact (s := List.replicate 512 97) (create_entries .ids hflt) ?_ ?_
    (by decide +kernel)
  · rw [htexts]
    decide +kernel
  · rw [htexts]
    exact List.mem_singleton_self _

def shortIds : Structured := .object [(str "ids", .array [.string (str "95"), .string (str "a3")])]

theorem shortIds_exact :
    ∃ flt, Filter.create (tabled [] [] []) (fun _ _ => .ofNat 0) shortIds = some flt ∧
    PrefixesExact .ids flt (shortIds.textsUnder (tabled [] [] []) .ids) := by
  obtain ⟨flt, hflt⟩ : ∃ flt,
      Filter.create (tabled [] [] []) (fun _ _ => .ofNat 0) shortIds = some flt :=
    Option.isSome_iff_exists.mp (by decide +kernel)
  exact ⟨flt, hflt, (prefixes_exact_iff .ids _ shortIds flt hflt (by decide +kernel)).mpr
    (by decide +kernel)⟩

end NostrServer
