import NostrServer.Structured
import NostrServer.Lib.Probing

namespace NostrServer

structure Tag where
  tag : Str
  content : Str
  additionalContent : List Str := []
deriving DecidableEq

abbrev ID := Binary 32
abbrev Pubkey := Binary 32
abbrev Signature := Binary 64

structure Event where
  kind : UInt32 := 0
  content : Str := []
  tags : List Tag := []
  createdAt : Int64 := 0
  tagHashMap : List UInt16 := []
  id : ID
  author : Pubkey
  sig : Signature
  /-- The event carries binary data; its 'x' tag names the hash. -/
  nip97 : Bool := false
  /-- Sent by someone authenticated as a local user. -/
  trusted : Bool := false
  refLevel : UInt8 := 0
deriving DecidableEq

structure Attachment where
  id : ID
  data : Str
deriving DecidableEq

inductive EventOrAttachment where
  | event (ev : Event)
  | attachment (att : Attachment)
deriving DecidableEq

namespace Kind

def metadata : UInt32 := 0
def shortTextNote : UInt32 := 1
def recommendRelay : UInt32 := 2
def contacts : UInt32 := 3
def encryptedDirectMessages : UInt32 := 4
def eventDeletion : UInt32 := 5
def giftWrapEvent : UInt32 := 1059
def fileHeader : UInt32 := 1063
def muteList : UInt32 := 10000
def clientAuthentication : UInt32 := 22242
def longFormContent : UInt32 := 30023
def replaceableBegin : UInt32 := 10000
def replaceableEnd : UInt32 := 20000
def ephemeralBegin : UInt32 := 20000
def ephemeralEnd : UInt32 := 30000
def parameterizedReplaceableBegin : UInt32 := 30000
def parameterizedReplaceableEnd : UInt32 := 40000

end Kind

/-- `Event::get_tag`: the last tag of that name. -/
def Event.getTag (ev : Event) (tag : Str) : Option Tag :=
  ev.tags.foldl (fun r t => if t.tag = tag then some t else r) none

def Event.getTagContent (ev : Event) (tag : Str) : Str :=
  match ev.getTag tag with
  | some t => t.content
  | none => []

/-- The tags `Event::for_each_tag` visits, in order. -/
def Event.forEachTag (ev : Event) (tag : Str) : List Tag := ev.tags.filter (fun t => t.tag = tag)

def getAttachmentId (unwritten : ID) (ev : Event) : ID :=
  fromHex unwritten (ev.getTagContent (str "x"))

/-- `tag_hash`; the `char` is promoted with its sign. -/
def tagHash (hasher : Str → UInt64) (t : UInt8) (content : Str) : UInt64 :=
  hasher content * 31 + t.toInt8.toInt64.toUInt64

/-- One turn of `Event::build_hash_map`, for the tag at position `i`. The position
is stored plus one in 16 bits. A turn that found no room would never end. -/
def buildStep (hasher : Str → UInt64) (map : List UInt16) (i : Nat) (t : Tag) : List UInt16 :=
  match t.tag with
  | [c] =>
    let idx := (tagHash hasher c t.content).toNat % map.length
    match Probing.probe (Probing.free 0 map) map.length map.length idx with
    | some j => map.set j (UInt16.ofNat (i + 1))
    | none => map
  | _ => map

def buildHashMap (hasher : Str → UInt64) (tags : List Tag) : List UInt16 :=
  tags.zipIdx.foldl (fun map p => buildStep hasher map p.2 p.1)
    (List.replicate (tags.length * 2 + 1) 0)

/-- `tr.tag[0] == t && tr.content == content`; `tag[0]` of an empty string is 0. -/
def Tag.answers (tr : Tag) (t : UInt8) (content : Str) : Bool :=
  tr.tag.getD 0 0 == t && tr.content == content

/-- `tags[f-1]` for the slot value `f` at `j`. -/
def Event.tagAt (ev : Event) (j : Nat) : Option Tag := ev.tags[(ev.tagHashMap.getD j 0).toNat - 1]?

def Event.hitAt (ev : Event) (t : UInt8) (content : Str) (j : Nat) : Bool :=
  (ev.tagAt j).any (fun tr => tr.answers t content)

def Event.findIndexedTag (hasher : Str → UInt64) (ev : Event) (t : UInt8)
    (content : Str) : Option Tag :=
  if ev.tagHashMap.isEmpty then none
  else
    let size := ev.tagHashMap.length
    let home := (tagHash hasher t content).toNat % size
    match Probing.probe (fun j => Probing.free 0 ev.tagHashMap j || ev.hitAt t content j) size
      size home with
    | some j => if Probing.free 0 ev.tagHashMap j then none else ev.tagAt j
    | none => none

/-- The event's tag table is the one built from its tags, as `fromStructured` and
`EventDocument::from_binary` leave it. -/
def Event.Indexed (hasher : Str → UInt64) (ev : Event) : Prop :=
  ev.tagHashMap = buildHashMap hasher ev.tags

inductive ParseError where
  | fieldId | fieldContent | fieldSignature | fieldCreatedAt | fieldTags | fieldKind | fieldPubkey
  | tagMustbeString | tagValueMustbeString | tagdefIsnotArray | invalidId
deriving DecidableEq

def ParseError.message : ParseError → Str
  | fieldContent => str "Field 'content' missing or is not string"
  | fieldId => str "Field 'id' missing or is not string"
  | fieldCreatedAt => str "Field 'create_at' missing or is not an unsigned number"
  | fieldSignature => str "Field 'signature' missing or is not string"
  | fieldTags => str "Field 'tags' is not an array"
  | fieldKind => str "Field 'kind' missing or is not an unsigned number"
  | fieldPubkey => str "Field 'pubkey' missing or is not string"
  | tagMustbeString => str "Tag must be non-empty string"
  | tagValueMustbeString => str "Tag value must be string"
  | tagdefIsnotArray => str "Tag definition must be non-empty array with at least 2 values"
  | invalidId => str "Invalid event id"

inductive Exn where
  | eventParse (e : ParseError)
  | duplicateKey
  | blocked (text : Str)
  | invalidArgument (text : Str)
  | badCast
deriving DecidableEq

def buildTags (ev : Event) : Structured :=
  .array (ev.tags.map (fun t =>
    .array (.string t.tag :: .string t.content :: t.additionalContent.map .string)))

def Event.toStructured (ev : Event) : Structured :=
  .object [(str "content", .string ev.content), (str "id", .string ev.id.toHex),
    (str "pubkey", .string ev.author.toHex), (str "sig", .string ev.sig.toHex),
    (str "kind", .int ev.kind.toNat), (str "created_at", .int ev.createdAt.toInt),
    (str "tags", buildTags ev)]

def Event.calcId (ext : External) (ev : Event) : ID :=
  ext.sha256 (ext.toJson (.array [.int 0, .string ev.author.toHex, .int ev.createdAt.toInt,
    .int ev.kind.toNat, buildTags ev, .string ev.content]))

def Event.verify (ext : External) (ev : Event) : Bool := ext.schnorrVerify ev.id ev.author ev.sig

def tagFromStructured (ext : External) (row : Structured) : Except Exn Tag :=
  if !row.isArray then .error (.eventParse .tagdefIsnotArray)
  else if row.items.length < 2 then .error (.eventParse .tagdefIsnotArray)
  else match row.item 0, row.item 1 with
    | .string tag, .string content =>
      match (row.items.drop 2).mapM ext.asString with
      | some more => .ok ⟨tag, content, more⟩
      | none => .error .badCast
    | .string _, _ => .error (.eventParse .tagValueMustbeString)
    | _, _ => .error (.eventParse .tagMustbeString)

def tagsFromStructured (ext : External) : List Structured → Except Exn (List Tag)
  | [] => .ok []
  | row :: rows =>
    match tagFromStructured ext row with
    | .error e => .error e
    | .ok t =>
      match tagsFromStructured ext rows with
      | .error e => .error e
      | .ok ts => .ok (t :: ts)

/-- What the three arrays of an event held before `from_hex` wrote them. -/
structure EventMemory where
  id : ID
  pubkey : Pubkey
  sig : Signature

def Event.fromStructured (ext : External) (mem : EventMemory) (s : Structured) : Except Exn Event :=
  match s.field (str "id") with
  | .string id =>
    match s.field (str "content") with
    | .string content =>
      match s.field (str "sig") with
      | .string sig =>
        if !ext.containsTime (s.field (str "created_at")) then .error (.eventParse .fieldCreatedAt)
        else if !ext.containsUnsigned (s.field (str "kind")) then .error (.eventParse .fieldKind)
        else
          match s.field (str "pubkey") with
          | .string pubkey =>
            let sTags := s.field (str "tags")
            if sTags.defined && !sTags.isArray then .error (.eventParse .fieldTags)
            else
              match ext.asTime (s.field (str "created_at")),
                ext.asUnsigned (s.field (str "kind")) with
              | some createdAt, some kind =>
                match tagsFromStructured ext sTags.items with
                | .error e => .error e
                | .ok tags =>
                  let ev : Event := { kind, content, tags, createdAt,
                                      id := fromHex mem.id id,
                                      author := fromHex mem.pubkey pubkey,
                                      sig := fromHex mem.sig sig }
                  if ev.calcId ext ≠ ev.id then .error (.eventParse .invalidId)
                  else .ok { ev with tagHashMap := buildHashMap ext.hasher tags }
              | _, _ => .error .badCast
          | _ => .error (.eventParse .fieldPubkey)
      | _ => .error (.eventParse .fieldSignature)
    | _ => .error (.eventParse .fieldContent)
  | _ => .error (.eventParse .fieldId)

/-- What the parser guarantees of the events it lets through. -/
theorem Event.fromStructured_ok (h : Event.fromStructured ext mem s = .ok ev) :
    ev.calcId ext = ev.id ∧ ev.Indexed ext.hasher ∧ ev.nip97 = false ∧ ev.trusted = false ∧
    ev.refLevel = 0 ∧
    ∃ text, s.field (str "id") = .string text ∧ ev.id = fromHex mem.id text := by
  unfold Event.fromStructured at h
  split at h
  · rename_i text htext
    repeat' first
      | cases h
      | split at h
      | dsimp only at h
    rename_i hid
    exact ⟨Classical.not_not.mp hid, rfl, rfl, rfl, rfl, text, htext, rfl⟩
  · cases h

def Exn.OfParser : Exn → Prop
  | .eventParse _ => True
  | .badCast => True
  | _ => False

theorem tagFromStructured_error (h : tagFromStructured ext row = .error e) : e.OfParser := by
  unfold tagFromStructured at h
  repeat' split at h
  all_goals cases h
  all_goals trivial

theorem tagsFromStructured_error (h : tagsFromStructured ext rows = .error e) : e.OfParser := by
  induction rows with
  | nil => cases h
  | cons row rows ih =>
    unfold tagsFromStructured at h
    split at h
    · rename_i hrow
      cases h
      exact tagFromStructured_error hrow
    · split at h
      · rename_i hrows
        cases h
        exact ih hrows
      · cases h

theorem Event.fromStructured_error (h : Event.fromStructured ext mem s = .error e) :
    e.OfParser := by
  unfold Event.fromStructured at h
  repeat' first
    | split at h
    | dsimp only at h
  all_goals cases h
  all_goals first
    | trivial
    | exact tagsFromStructured_error ‹_›

end NostrServer
