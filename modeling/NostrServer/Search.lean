import NostrServer.Filter
import NostrServer.Indexes
import NostrServer.Lib.Recordset

namespace NostrServer
open Docdb

/-- `unique_key_value_ordering`; the difference is narrowed to 32 bits. -/
def uniqueKeyValueOrdering (time : Int64) : OrderingItem :=
  (0, (time - 946681200).toUInt64.toUInt32)

/-- `multi_index_ordering`: the time is read after the fields of the given length. -/
def multiIndexOrdering (keys : KeyCodec) (fields : Nat) (key : Str) : OrderingItem :=
  uniqueKeyValueOrdering (keys.readTime ((key.drop fields).take 8))

def fulltextRelevanceOrdering (word key : Str) (rel : UInt8) : OrderingItem :=
  (256 / (rel * (UInt8.ofNat (key.length - word.length + 1))).toUInt32, 0)

def mergeRelevance (a b : OrderingItem) : OrderingItem := (max a.1 b.1, max a.2 b.2)

/-- The order of `std::pair<unsigned int, unsigned int>`. -/
def orderingLt (a b : OrderingItem) : Bool := a.1 < b.1 || (a.1 == b.1 && a.2 < b.2)

/-- What a query works with besides the stored documents. The sort is `std::sort` with
`a.value > b.value`: the order of equal values is left open. -/
structure Engine where
  ext : External
  keys : KeyCodec
  sets : Calculator OrderingItem
  sort : Records OrderingItem → Records OrderingItem
  sort_perm : ∀ items, (sort items).Perm items
  sort_sorted : ∀ items, (sort items).Pairwise (fun a b => ¬ orderingLt a.2 b.2)

/-- `need_time` after the loops over authors, tags and kinds. -/
def Filter.needTime (f : Filter) : Bool :=
  f.authors.all (fun a => a.count ≠ 32) && f.tags.all (fun t => t.2.isEmpty) && f.kinds.isEmpty

namespace Engine
variable (en : Engine) (rs : Records EventOrAttachment)

def pushRows (rows : List (Row V)) (ordering : Row V → OrderingItem) : en.sets.Set :=
  en.sets.push (rows.map (fun row => (row.id, ordering row)))

/-- A loop over one kind of condition: the union of what each value selects. -/
def unite (sel : α → en.sets.Set) (values : List α) : en.sets.Set :=
  values.foldl (fun s a => en.sets.or mergeRelevance s (sel a)) (en.sets.push [])

/-- `append_time`, for the lower and the upper bound. -/
def appendTime (f : Filter) (field : Str) : Str × Str :=
  (field ++ en.keys.time (f.since.getD 0), field ++ en.keys.time (f.untilTime.getD Int64.maxValue))

def selectTime (rows : List (Row V)) (f : Filter) (field : Str) : List (Row V) :=
  selectBetween rows (en.appendTime f field).1 (en.appendTime f field).2

def searchShortenID (rows : List (Row V)) (a : ShortenID) : List (Row V) :=
  selectBetween rows (a.value.bytes.take a.count ++ List.replicate (32 - a.count) 0)
    (a.value.bytes.take a.count ++ List.replicate (32 - a.count) 0xFF)

def searchToken (tk : WordToken) : en.sets.Set :=
  en.pushRows ((indexRows (indexForFulltextFn en.ext) rs).filter
    (fun row => tk.1.isPrefixOf row.key))
    (fun row => fulltextRelevanceOrdering tk.1 row.key row.value)

def searchId (a : ShortenID) : en.sets.Set :=
  if a.count ≠ 32 then
    en.pushRows (searchShortenID (indexRows indexByIdFn rs) a)
      (fun row => uniqueKeyValueOrdering row.value)
  else
    match (indexRows indexByIdFn rs).find? (fun row => row.key == a.value.bytes) with
    | some row => en.sets.push [(row.id, uniqueKeyValueOrdering row.value)]
    | none => en.sets.push []

/-- The full author's ordering reads the time as if it followed a `std::size_t`. -/
def searchAuthor (f : Filter) (a : ShortenID) : en.sets.Set :=
  let rows := indexRows (indexByPubkeyHashTimeFn en.keys) rs
  if a.count ≠ 32 then en.pushRows (searchShortenID rows a)
    (fun row => multiIndexOrdering en.keys 32 row.key)
  else en.pushRows (en.selectTime rows f a.value.bytes)
    (fun row => multiIndexOrdering en.keys 8 row.key)

def searchTag (f : Filter) (t : UInt8) (x : Str) : en.sets.Set :=
  en.pushRows (en.selectTime (indexRows (indexTagValueHashTimeFn en.ext en.keys) rs) f
    ([t] ++ en.keys.hash (en.ext.hasher x))) (fun row => multiIndexOrdering en.keys (1 + 8) row.key)

def searchKind (f : Filter) (k : UInt32) : en.sets.Set :=
  en.pushRows (en.selectTime (indexRows (indexKindTimeFn en.keys) rs) f (en.keys.kind k))
    (fun row => multiIndexOrdering en.keys 4 row.key)

def searchTime (f : Filter) : en.sets.Set :=
  en.pushRows (en.selectTime (indexRows (indexTimeFn en.keys) rs) f [])
    (fun row => multiIndexOrdering en.keys 0 row.key)

/-- One turn of the loop over the filters: the set it leaves on the stack. Empty
sets leave early after the search text, the ids and the authors. -/
def filterSet (f : Filter) : en.sets.Set :=
  let meet := en.sets.and mergeRelevance
  let s := en.sets.all
  let s := if f.ftSearch.isEmpty then s
    else meet s (en.unite (en.searchToken rs) (tokenizeText en.ext f.ftSearch))
  if en.sets.isEmpty s then s
  else
    let s := if f.ids.isEmpty then s else meet s (en.unite (en.searchId rs) f.ids)
    if !f.ids.isEmpty && en.sets.isEmpty s then s
    else
      let s := if f.authors.isEmpty then s else meet s (en.unite (en.searchAuthor rs f) f.authors)
      if !f.authors.isEmpty && en.sets.isEmpty s then s
      else
        let s := f.tags.foldl (fun s t => meet s (en.unite (en.searchTag rs f t.1) t.2)) s
        let s := if f.kinds.isEmpty then s else meet s (en.unite (en.searchKind rs f) f.kinds)
        if f.needTime && (f.since.isSome || f.untilTime.isSome) then meet s (en.searchTime rs f)
        else s

/-- `App::find_in_index`: the set left on the stack. -/
def findInIndex (filters : List Filter) : en.sets.Set := en.unite (en.filterSet rs) filters

end Engine

end NostrServer
