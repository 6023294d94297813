import NostrServer.Fulltext
import NostrServer.Lib.KeyRange

namespace NostrServer
open Docdb

abbrev OrderingItem := UInt32 × UInt32

def indexByIdFn : EventOrAttachment → List (Str × Int64)
  | .event ev => [(ev.id.bytes, ev.createdAt)]
  | .attachment _ => []

/-- `replacable_2` of `App::IndexByAuthorKindFn`. -/
def parameterizedReplaceable (ev : Event) : Bool :=
  Kind.parameterizedReplaceableBegin ≤ ev.kind && ev.kind < Kind.parameterizedReplaceableEnd

def replaceable (ev : Event) : Bool :=
  ev.kind == Kind.metadata || ev.kind == Kind.contacts ||
    (Kind.replaceableBegin ≤ ev.kind && ev.kind < Kind.replaceableEnd) ||
      parameterizedReplaceable ev

structure AuthorKindTagKey where
  author : Pubkey
  kind : UInt32
  tag : Str
deriving DecidableEq

def Event.replaceKey (ev : Event) : AuthorKindTagKey :=
  ⟨ev.author, ev.kind, if parameterizedReplaceable ev then ev.getTagContent (str "d") else []⟩

def indexByAuthorKindFn : EventOrAttachment → List (AuthorKindTagKey × Int64)
  | .event ev => if replaceable ev then [(ev.replaceKey, ev.createdAt)] else []
  | .attachment _ => []

def indexByPubkeyHashTimeFn (keys : KeyCodec) : EventOrAttachment → List (Str × Unit)
  | .event ev => [(ev.author.bytes ++ keys.time ev.createdAt, ())]
  | .attachment _ => []

def indexTagValueHashTimeFn (ext : External) (keys : KeyCodec) :
    EventOrAttachment → List (Str × Unit)
  | .event ev => (ev.tags.filter (fun t => t.tag.length = 1)).map (fun t =>
      (t.tag ++ keys.hash (ext.hasher t.content) ++ keys.time ev.createdAt, ()))
  | .attachment _ => []

def indexKindTimeFn (keys : KeyCodec) : EventOrAttachment → List (Str × Unit)
  | .event ev => [(keys.kind ev.kind ++ keys.time ev.createdAt, ())]
  | .attachment _ => []

def indexTimeFn (keys : KeyCodec) : EventOrAttachment → List (Str × Unit)
  | .event ev => [(keys.time ev.createdAt, ())]
  | .attachment _ => []

def indexForFulltextFn (ext : External) : EventOrAttachment → List (Str × UInt8)
  | .event ev =>
    let long (text : Str) := (tokenizeText ext text).filter (fun x => x.1.length > 1)
    (if ev.kind = Kind.metadata ∨ ev.kind = Kind.shortTextNote ∨ ev.kind = Kind.recommendRelay ∨
        ev.kind = Kind.longFormContent then long ev.content else []) ++
      (ev.tags.filter (fun t => t.tag ∈ [str "description", str "name", str "subject",
        str "summary", str "title"])).flatMap (fun t => long t.content)
  | .attachment _ => []

/-- `App::IndexNip05Fn`; a content that is no JSON text, or has no such name, emits nothing. -/
def indexNip05Fn (ext : External) : EventOrAttachment → List Str
  | .event ev =>
    if ev.kind = Kind.metadata then
      match (ext.fromJson ev.content).bind
        (fun ctx => ext.asStringView (ctx.field (str "nip05"))) with
      | some name => if name.contains 64 then [name] else []
      | none => []
    else []
  | .attachment _ => []

/-- The keys of the unique indexes, each under its index. The attachment rows of
events end with the number of their document, so they never meet. -/
inductive UniqueKey where
  | ids (id : ID)
  | replaceable (key : AuthorKindTagKey)
  | attachments (id : ID)
  | nip05 (name : Str)
deriving DecidableEq

def uniqueKeys (ext : External) (evatt : EventOrAttachment) : List UniqueKey :=
  (match evatt with
    | .event ev => [.ids ev.id]
    | .attachment att => [.attachments att.id]) ++
  (indexByAuthorKindFn evatt).map (fun row => .replaceable row.1) ++
    (indexNip05Fn ext evatt).map .nip05

/-- `App::autocompact`: the document an update takes out is deleted for good. -/
def autocompact (up : Update EventOrAttachment) : List DocID :=
  if up.oldDoc.isSome then [up.oldDocId] else []

theorem autocompact_compacts : Compacts autocompact := fun _ => rfl

abbrev EventStorage (ext : External) :=
  Storage EventOrAttachment UniqueKey (uniqueKeys ext) autocompact

/-- A store as the storage hands it out: numbers and unique keys belong to one
document each, and every event carries the tag table of its tags. -/
structure Store (ext : External) where
  records : Records EventOrAttachment
  ids_nodup : (records.map Prod.fst).Nodup
  unique : Unique (uniqueKeys ext) records
  indexed : ∀ r ∈ records, ∀ ev, r.2 = .event ev → ev.Indexed ext.hasher

def Store.Has (st : Store ext) (id : DocID) (ev : Event) : Prop := (id, .event ev) ∈ st.records

theorem id_key (ext : External) (ev : Event) :
    UniqueKey.ids ev.id ∈ uniqueKeys ext (.event ev) := by
  simp [uniqueKeys]

/-- An id belongs to one document. -/
theorem Store.same_id {st : Store ext} {i j : DocID} (h : st.Has i ev) (h' : st.Has j ev')
    (he : ev.id = ev'.id) : i = j ∧ ev = ev' := by
  have hij : i = j := st.unique _ h _ h' (.ids ev.id) (id_key ext ev) (he ▸ id_key ext ev')
  have hr := same_record st.ids_nodup h h' hij
  simp only [Prod.mk.injEq, EventOrAttachment.event.injEq] at hr
  exact hr

end NostrServer
