import Mathlib.Data.List.Sort
import NostrServer.Event

namespace NostrServer

/-- `ShortenID` and `ShortenPubkey`: the first `count` bytes are compared. -/
structure ShortenID where
  value : Binary 32
  count : Nat
  bound : count ≤ 32
deriving DecidableEq

def ShortenID.full (v : Binary 32) : ShortenID := ⟨v, 32, Nat.le_refl 32⟩

structure Filter where
  ids : List ShortenID := []
  authors : List ShortenID := []
  kinds : List UInt32 := []
  tags : List (UInt8 × List Str) := []
  since : Option Int64 := none
  untilTime : Option Int64 := none
  limit : Option UInt32 := none
  ftSearch : Str := []
deriving DecidableEq

def ShortenID.cmpShorten (x : ShortenID) (v : Binary 32) : Bool :=
  x.value.bytes.take x.count == v.bytes.take x.count

def Event.hasTag (hasher : Str → UInt64) (doc : Event) (t : UInt8) (contents : List Str) : Bool :=
  contents.any (fun c => (doc.findIndexedTag hasher t c).isSome)

def Filter.test (hasher : Str → UInt64) (f : Filter) (doc : Event) : Bool :=
  if !f.authors.isEmpty && !f.authors.any (fun a => a.cmpShorten doc.author) then false
  else if !f.ids.isEmpty && !f.ids.any (fun a => a.cmpShorten doc.id) then false
  else if !f.kinds.isEmpty && !f.kinds.contains doc.kind then false
  else if !f.tags.all (fun t => doc.hasTag hasher t.1 t.2) then false
  else if f.since.any (fun s => doc.createdAt < s) then false
  else if f.untilTime.any (fun u => doc.createdAt > u) then false
  else true

/-- The conditions `Filter::test` puts on an event, one by one. -/
structure Filter.Accepts (hasher : Str → UInt64) (f : Filter) (doc : Event) : Prop where
  authors : f.authors ≠ [] → ∃ a ∈ f.authors, a.cmpShorten doc.author = true
  ids : f.ids ≠ [] → ∃ a ∈ f.ids, a.cmpShorten doc.id = true
  kinds : f.kinds ≠ [] → doc.kind ∈ f.kinds
  tags : ∀ t ∈ f.tags, ∃ c ∈ t.2, ∃ tr, doc.findIndexedTag hasher t.1 c = some tr
  since : ∀ s, f.since = some s → s ≤ doc.createdAt
  untilTime : ∀ u, f.untilTime = some u → doc.createdAt ≤ u

theorem Filter.test_iff (hasher : Str → UInt64) (f : Filter) (doc : Event) :
    f.test hasher doc = true ↔ f.Accepts hasher doc := by
  have hsince : f.since.any (fun s => doc.createdAt < s) = false ↔
      ∀ s, f.since = some s → s ≤ doc.createdAt := by
    cases f.since <;> simp [Int64.not_lt]
  have huntil : f.untilTime.any (fun u => doc.createdAt > u) = false ↔
      ∀ u, f.untilTime = some u → doc.createdAt ≤ u := by
    cases f.untilTime <;> simp [Int64.not_lt]
  have htags : f.tags.all (fun t => doc.hasTag hasher t.1 t.2) = true ↔
      ∀ t ∈ f.tags, ∃ c ∈ t.2, ∃ tr, doc.findIndexedTag hasher t.1 c = some tr := by
    simp only [List.all_eq_true, Event.hasTag, List.any_eq_true, Option.isSome_iff_exists]
  constructor
  · intro h
    unfold Filter.test at h
    split at h <;> try cases h
    rename_i ha
    split at h <;> try cases h
    rename_i hi
    split at h <;> try cases h
    rename_i hk
    split at h <;> try cases h
    rename_i ht
    split at h <;> try cases h
    rename_i hs
    split at h <;> try cases h
    rename_i hu
    refine ⟨fun hn => ?_, fun hn => ?_, fun hn => ?_, htags.mp (by simpa using ht),
      hsince.mp (by simpa using hs), huntil.mp (by simpa using hu)⟩
    · simpa [hn] using ha
    · simpa [hn] using hi
    · simpa [hn] using hk
  · intro h
    have ha : (!f.authors.isEmpty && !f.authors.any (fun a => a.cmpShorten doc.author)) =
        false := by
      by_cases hn : f.authors = []
      · simp [hn]
      · simpa [hn] using h.authors hn
    have hi : (!f.ids.isEmpty && !f.ids.any (fun a => a.cmpShorten doc.id)) = false := by
      by_cases hn : f.ids = []
      · simp [hn]
      · simpa [hn] using h.ids hn
    have hk : (!f.kinds.isEmpty && !f.kinds.contains doc.kind) = false := by
      by_cases hn : f.kinds = []
      · simp [hn]
      · simpa [hn] using h.kinds hn
    simp only [Filter.test, ha, hi, hk, htags.mpr h.tags, hsince.mpr h.since,
      huntil.mpr h.untilTime, Bool.not_true, Bool.false_eq_true, ↓reduceIte]

def Filter.Conditioned (f : Filter) : Prop :=
  f.ids ≠ [] ∨ f.authors ≠ [] ∨ f.kinds ≠ [] ∨ f.tags ≠ [] ∨ f.since.isSome = true ∨
  f.untilTime.isSome = true

instance (f : Filter) : Decidable f.Conditioned := by
  unfold Filter.Conditioned
  infer_instance

/-- The filter asks for nothing in particular, no text either. -/
def Filter.unrestricted (f : Filter) : Bool := f.ftSearch.isEmpty && !decide f.Conditioned

theorem Filter.unrestricted_iff {f : Filter} :
    f.unrestricted = true ↔ f.ftSearch = [] ∧ ¬ f.Conditioned := by
  simp [unrestricted]

/-- One entry of an "ids" or "authors" list. The length is narrowed to a byte
before it is bounded. -/
def shortenID (ext : External) (unwritten : Binary 32) (c : Structured) : Option ShortenID :=
  (ext.asStringView c).map (fun hx => ⟨fromHex unwritten hx, min 32 (hx.length / 2 % 256),
    Nat.min_le_left _ _⟩)

def shortenIDs (ext : External) (mem : Nat → Binary 32)
    (v : Structured) : Option (List ShortenID) :=
  v.items.zipIdx.mapM (fun c => shortenID ext (mem c.2) c.1)

/-- One key of `Filter::create`; `none` when a conversion throws. -/
def createField (ext : External) (mem : Nat → Binary 32) (out : Filter) (k : Str)
    (v : Structured) : Option Filter :=
  if k = str "authors" then
    (shortenIDs ext mem v).map (fun a => { out with authors := out.authors ++ a })
  else if k = str "ids" then
    (shortenIDs ext mem v).map (fun a => { out with ids := out.ids ++ a })
  else if k = str "kinds" then
    (v.items.mapM ext.asUnsigned).map (fun a => { out with kinds := out.kinds ++ a })
  else if k.take 1 = str "#" then
    match k.drop 1 with
    | [t] => (v.items.mapM ext.asString).map (fun a => { out with tags := out.tags ++ [(t, a)] })
    | _ => some out
  else if k = str "since" then
    (ext.asTime v).map (fun t => { out with since := some t })
  else if k = str "until" then
    (ext.asTime v).map (fun t => { out with untilTime := some t })
  else if k = str "limit" then
    (ext.asUnsigned v).map (fun n => { out with limit := some n })
  else if k = str "search" then
    (ext.asStringView v).map (fun s => { out with ftSearch := s })
  else some out

/-- The order of `std::pair<char, std::vector<std::string>>`. -/
def tagLe (a b : UInt8 × List Str) : Bool :=
  a.1.toInt8 < b.1.toInt8 || (a.1 == b.1 && decide (a.2 ≤ b.2))

/-- `Filter::create`. `mem i` is what the arrays made for the i-th key held. -/
def Filter.create (ext : External) (mem : Nat → Nat → Binary 32) (f : Structured) : Option Filter :=
  let filled := f.keypairs.zipIdx.foldlM
    (fun out kv => createField ext (mem kv.2) out kv.1.1 kv.1.2) {}
  filled.map (fun out => { out with tags := out.tags.insertionSort (fun a b => tagLe a b) })

end NostrServer
