import NostrServer.Karma
import NostrServer.Search

namespace NostrServer
open Docdb

/-- A row of `_index_attachments`. The key of an attachment's own row is its id; the
row of an event that refers to it adds the event's number. The value is `state`. -/
structure AttachmentRow where
  attId : ID
  event : Option DocID
  owner : DocID
deriving DecidableEq

def AttachmentRow.state (r : AttachmentRow) : Bool := r.event.isSome

/-- `App::IndexAttachmentFn`, for the document `emit.id()`. -/
def indexAttachmentFn (ext : External) (unwritten : ID) (docId : DocID) :
    EventOrAttachment → List AttachmentRow
  | .event ev =>
    if ev.kind = Kind.fileHeader ∧
      (ev.findIndexedTag ext.hasher 102 (str "file")).isSome = true then
      [⟨fromHex unwritten (ev.getTagContent (str "x")), some docId, docId⟩]
    else []
  | .attachment att => [⟨att.id, none, docId⟩]

/-- The attachment index's share of an update. Rows are taken out by their keys. -/
def attachmentsUpdate (ext : External) (mem : IndexMemory) (up : Update EventOrAttachment)
    (rows : List AttachmentRow) : List AttachmentRow :=
  let rows := match up.oldDoc with
    | some d =>
      let out := indexAttachmentFn ext mem.attachmentErase up.oldDocId d
      rows.filter (fun r => !out.any (fun q => q.attId == r.attId && q.event == r.event))
    | none => rows
  match up.newDoc with
  | some d => indexAttachmentFn ext mem.attachmentInsert up.newDocId d ++ rows
  | none => rows

/-- The `ServerOptions` the message handlers read. -/
structure ServerOptions where
  pow : Int := 0
  eventRateWindow : Nat := 10
  eventRateLimit : Nat := 10
  attachmentMaxSize : Nat := 1024 * 1024
  maxMessageSize : Nat := 64 * 1024
  readOnly : Bool := false
  whitelisting : Bool := false

/-- What stays the same while the server runs. -/
structure Relay where
  engine : Engine
  options : ServerOptions
  db : EventStorage engine.ext

abbrev Relay.ext (rl : Relay) : External := rl.engine.ext

/-- The state of `App`: the storage, the indexes that are not functions of the stored
documents, what was handed to the publisher and by which peer, and how often the
GC thread was asked for. -/
structure App (rl : Relay) where
  storage : rl.db.State
  karma : KarmaTable := []
  attachments : List AttachmentRow := []
  emptyDatabase : Bool := true
  published : List (Event × Option Nat) := []
  gcStarts : Nat := 0

namespace App
variable {rl : Relay} (a : App rl)

abbrev records : Records EventOrAttachment := rl.db.records a.storage

def find (id : DocID) : Option EventOrAttachment := a.records.find id

/-- What the observers do of an update that the storage accepted. -/
def updated (mem : IndexMemory) (up : Update EventOrAttachment) (s' : rl.db.State) : App rl :=
  { a with storage := s', karma := karmaUpdate mem up a.karma,
           attachments := attachmentsUpdate rl.ext mem up a.attachments }

/-- `_storage.put`; `none` is a `DuplicateKeyException`. -/
def put (mem : IndexMemory) (d : EventOrAttachment) (old : DocID) : Option (App rl) :=
  (rl.db.put a.storage d old).map (fun p => a.updated mem ⟨some d, p.1, a.find old, old⟩ p.2)

def erase (mem : IndexMemory) (i : DocID) : App rl :=
  a.updated mem ⟨none, 0, a.find i, i⟩ (rl.db.erase a.storage i)

def findEventById (id : ID) : DocID :=
  match (indexRows indexByIdFn a.records).find? (fun row => row.key == id.bytes) with
  | some row => row.id
  | none => 0

/-- The row of `_index_replaceable` under a key: its document and its time. -/
def findReplaceable (key : AuthorKindTagKey) : Option (DocID × Int64) :=
  a.records.findSome? (fun r => ((indexByAuthorKindFn r.2).lookup key).map (fun tm => (r.1, tm)))

/-- `App::doc_to_replace`: `some 0` when there is nothing to replace, `none` for
`DocID(-1)`, when what is stored is newer. -/
def docToReplace (ev : Event) : Option DocID :=
  (indexByAuthorKindFn (.event ev)).foldl (fun toReplace row =>
    match a.findReplaceable row.1 with
    | some (id, tm) => if tm > row.2 then none else some id
    | none => toReplace) (some 0)

/-- `App::check_whitelist`, with the flag it may clear. -/
def checkWhitelist (k : Pubkey) : Bool × App rl :=
  let a' := if a.emptyDatabase then { a with emptyDatabase := a.karma.isEmpty } else a
  if a'.emptyDatabase then (true, a')
  else ((a.karma.lookup k).any (fun r => r.getScore > 0), a')

def isHomeUser (pubkey : Pubkey) : Bool := a.karma.isLocal pubkey

def getKarma (k : Pubkey) : Int32 :=
  match a.karma.lookup k with
  | some r => r.getScore
  | none => 0

def findAttachment (id : ID) : DocID :=
  match a.attachments.find? (fun r => r.attId == id && r.event == none) with
  | some r => r.owner
  | none => 0

def publishEvent (ev : Event) (publisher : Option Nat) : App rl :=
  { a with published := a.published ++ [(ev, publisher)] }

def publish (mem : IndexMemory) (ev : Event) (publisher : Option Nat) : Except Exn (App rl) :=
  match a.docToReplace ev with
  | none => .ok a
  | some toReplace =>
    match a.put mem (.event ev) toReplace with
    | none => .error .duplicateKey
    | some a' =>
      let a' := a'.publishEvent ev publisher
      .ok (if ev.kind = Kind.eventDeletion then { a' with gcStarts := a'.gcStarts + 1 } else a')

/-- `App::publish` with an attachment: one batch stores both. -/
def publishFile (mem mem' : IndexMemory) (ev : Event) (attach : Attachment)
    (publisher : Option Nat) :
    Except Exn (App rl) :=
  let attToReplace := a.findAttachment attach.id
  match a.docToReplace ev with
  | none => .ok a
  | some toReplace =>
    match (a.put mem (.event ev) toReplace).bind
      (fun a' => a'.put mem' (.attachment attach) attToReplace) with
    | none => .error .duplicateKey
    | some a' => .ok (a'.publishEvent ev publisher)

/-- The order of keys: an attachment's own row comes first, then those of events. -/
def rowLe (r q : AttachmentRow) : Bool :=
  r.attId.bytes < q.attId.bytes || (r.attId == q.attId && r.event.getD 0 ≤ q.event.getD 0)

/-- The scan of `run_attachment_gc`; the last of `killthem` stands first here. -/
def gcScan : List AttachmentRow → List ID → List ID
  | [], killthem => killthem
  | row :: rows, killthem =>
    if !row.state then gcScan rows (row.attId :: killthem)
    else if killthem.head? = some row.attId then gcScan rows killthem.tail
    else gcScan rows killthem

def killAttachment (mem : IndexMemory) (k : ID) : App rl :=
  if a.findAttachment k = 0 then a else a.erase mem (a.findAttachment k)

def runAttachmentGc (mem : IndexMemory) : App rl :=
  (gcScan (a.attachments.mergeSort rowLe) []).reverse.foldl (fun a k => a.killAttachment mem k) a

end App

end NostrServer
