import NostrServer.Karma
import NostrServer.Search
import Mathlib.Data.List.Sort

namespace NostrServer
open Docdb

def Binary.ofNat (v : Nat) : Binary n := ⟨bigEndian n v, bigEndian_length n v⟩

theorem orderingLt_total (a b : OrderingItem) (h : orderingLt a b = true) :
    orderingLt b a = false := by
  simp only [orderingLt, Bool.or_eq_true, Bool.and_eq_true, decide_eq_true_eq, beq_iff_eq,
    Bool.or_eq_false_iff, Bool.and_eq_false_iff, decide_eq_false_iff_not, UInt32.not_lt] at h ⊢
  rcases h with h | ⟨he, h⟩
  · exact ⟨UInt32.le_of_lt h, Or.inl (by simpa using (UInt32.ne_of_lt h).symm)⟩
  · exact ⟨by simp [he], Or.inr (UInt32.le_of_lt h)⟩

theorem orderingLt_trans (a b c : OrderingItem) (h : ¬ orderingLt a b) (h' : ¬ orderingLt b c) :
    ¬ orderingLt a c := by
  simp only [orderingLt, Bool.or_eq_true, Bool.and_eq_true, decide_eq_true_eq, beq_iff_eq,
    not_or, not_and, UInt32.not_lt, UInt32.le_iff_toNat_le, ← UInt32.toNat_inj] at h h' ⊢
  omega

/-- No later item comes before an earlier one. -/
def Descending (a b : DocID × OrderingItem) : Prop := ¬ orderingLt a.2 b.2

instance : DecidableRel Descending :=
  fun a b => inferInstanceAs (Decidable (¬ orderingLt a.2 b.2 = true))

instance : Std.Total Descending where
  total a b := by
    by_cases h : orderingLt a.2 b.2 = true
    · exact Or.inr (by simp [Descending, orderingLt_total _ _ h])
    · exact Or.inl h

instance : IsTrans (DocID × OrderingItem) Descending where
  trans a b c := orderingLt_trans a.2 b.2 c.2

def plainEngine (ext : External) : Engine where
  ext
  keys := bigEndianKeys
  sets := plainCalculator OrderingItem
  sort items := items.insertionSort Descending
  sort_perm items := List.perm_insertionSort Descending items
  sort_sorted items := List.pairwise_insertionSort Descending items

def jsonChar (c : UInt8) : Str :=
  if c = 34 ∨ c = 92 then [92, c]
  else if c < 32 then str "\\u00" ++ [hexLetter (c / 16), hexLetter (c % 16)]
  else [c]

def jsonString (s : Str) : Str := [34] ++ s.flatMap jsonChar ++ [34]

mutual

def jsonText : Structured → Str
  | .undefined => str "null"
  | .null => str "null"
  | .bool b => str (if b then "true" else "false")
  | .int i => str (toString i)
  | .real token => token
  | .string s => jsonString s
  | .array items => [91] ++ jsonItems items ++ [93]
  | .object items => [123] ++ jsonFields items ++ [125]

def jsonItems : List Structured → Str
  | [] => []
  | [v] => jsonText v
  | v :: w :: items => jsonText v ++ [44] ++ jsonItems (w :: items)

def jsonFields : List (Str × Structured) → Str
  | [] => []
  | [(k, v)] => jsonString k ++ [58] ++ jsonText v
  | (k, v) :: f :: items => jsonString k ++ [58] ++ jsonText v ++ [44] ++ jsonFields (f :: items)

end

/-- FNV-1a, a hash that C++ libraries use. -/
def fnv1a (s : Str) : UInt64 :=
  s.foldl (fun h c => (h ^^^ c.toUInt64) * 1099511628211) 14695981039346656037

/-- The libraries in a locale that knows ASCII: `digests` lists hashes, `signatures`
what was signed, `texts` the values whose texts are parsed. -/
def tabled (digests : List (Str × Binary 32))
    (signatures : List (Binary 32 × Binary 32 × Binary 64)) (texts : List Structured) :
    External where
  sha256 s := (digests.lookup s).getD (Binary.replicate 32 0)
  schnorrVerify id author sig := signatures.contains (id, author, sig)
  hasher := fnv1a
  toJson := jsonText
  fromJson s := texts.find? (fun v => jsonText v == s)
  containsTime | .int _ => true | _ => false
  containsUnsigned | .int i => decide (0 ≤ i) | _ => false
  asTime | .int i => some (Int64.ofInt i) | _ => none
  asUnsigned | .int i => some (UInt32.ofNat i.toNat) | _ => none
  asString | .string s => some s | _ => none
  asStringView | .string s => some s | _ => none
  wideChars s := (s.filter (· < 128)).map (·.toUInt32)
  wcharToUtf8 c := [c.toUInt8]
  isalnum c := (48 ≤ c && c ≤ 57) || (65 ≤ c && c ≤ 90) || (97 ≤ c && c ≤ 122)
  tolower c := if 65 ≤ c && c ≤ 90 then c + 32 else c
  unacCharUtf16 _ := []
  asString_string _ := rfl

theorem fromJson_mem {digests : List (Str × Binary 32)}
    {signatures : List (Binary 32 × Binary 32 × Binary 64)} {texts : List Structured}
    (h : (tabled digests signatures texts).fromJson s = some v) :
    v ∈ texts ∧ jsonText v = s :=
  ⟨List.mem_of_find?_eq_some h, by simpa using List.find?_some h⟩

def IndexMemory.zeros : IndexMemory := ⟨fun _ => .ofNat 0, fun _ => .ofNat 0, .ofNat 0, .ofNat 0⟩

def Event.parsed (ev : Event) : Event := { ev with tagHashMap := buildHashMap fnv1a ev.tags }

theorem Event.parsed_indexed (ev : Event) : ev.parsed.Indexed fnv1a := rfl

/-- An event of someone's, and its canonical text. -/
def note : Event := Event.parsed
  { kind := 1, createdAt := 1700000000
    id := .ofNat 0x9560462663421aa1f41a817b052e43987b465cca609fe3b642d5f792e4c939b6
    author := .ofNat 0xf9308a019258c31049344f85f89d5229b531c845836f99b08601f113bce036f9
    sig := .ofNat 0x630b3b4a5e1d5216f707e4f1077b9da020a58be2045dd9ab0e68f99876dcfb46c78b6f24ecadf9bb7c770a3e8ce582942203b81233e3b86e6e370b949fc51617 }

def noteText : Str :=
  str "[0,\"f9308a019258c31049344f85f89d5229b531c845836f99b08601f113bce036f9\",1700000000,1,[],\"\"]"

def laterNote : Event := Event.parsed
  { kind := 1, createdAt := 1700000001
    id := .ofNat 0xa302563da9ecabf89e26ebf722aefeed1bd2c79f22a53b3e3809fc2c438de2c2
    author := note.author
    sig := .ofNat 0x07c9b944d9d7c50533717ee49e4955e20f40fded8471c4ca5bdda749af198c731c9319b9e62601dda6789a34e1bf82c5a72c0f30ecaddf6972d3d02c9484fe49 }

def laterNoteText : Str :=
  str "[0,\"f9308a019258c31049344f85f89d5229b531c845836f99b08601f113bce036f9\",1700000001,1,[],\"\"]"

end NostrServer
