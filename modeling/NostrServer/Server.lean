import NostrServer.Deletion
import NostrServer.Lib.Runs

namespace NostrServer
open Docdb

inductive Frame where
  | text (payload : Str)
  | binary (payload : Str)
  | connClose
  | largeFrame
  | other

/-- One thing the server does to its end before the next begins: take a connection,
handle a message of one, or collect attachments. -/
inductive Input where
  | connect (conn : Nat) (authPubkey : Pubkey) (nonce : Str)
  | frame (conn : Nat) (f : Frame) (c : Circumstance)
  | gc (mem : IndexMemory)

structure Server (rl : Relay) where
  app : App rl
  peers : Nat → Option Peer := fun _ => none
  sent : List (Nat × Reply) := []

variable {rl : Relay}

/-- One turn of the loop of `Peer::client_main`, and whether the connection stays. -/
def Session.handle (s : Session rl) (conn : Nat) (f : Frame)
    (c : Circumstance) : Session rl × Bool :=
  match f with
  | .text payload => (s.processMessage c conn payload, true)
  | .binary payload =>
    match s.processBinaryMessage c.mem payload with
    | (s, thrown) => (s, thrown.isNone)
  | .connClose => (s, false)
  | .largeFrame => (s.sendNotice (str "Message too large"), true)
  | .other => (s, true)

namespace Server

def start (rl : Relay) : Server rl := { app := { storage := rl.db.empty } }

def session (sv : Server rl) (p : Peer) : Session rl := { app := sv.app, peer := p }

def setPeer (sv : Server rl) (conn : Nat) (p : Option Peer) : Nat → Option Peer :=
  fun i => if i = conn then p else sv.peers i

def step (sv : Server rl) : Input → Server rl
  | .connect conn authPubkey nonce =>
    if (sv.peers conn).isSome then sv
    else { sv with
      peers := sv.setPeer conn (some { authPubkey, authNonce := nonce })
      sent := sv.sent ++ [(conn, .auth nonce)] }
  | .frame conn f c =>
    match sv.peers conn with
    | none => sv
    | some p =>
      match (sv.session p).handle conn f c with
      | (s, stays) =>
        { app := s.app
          peers := sv.setPeer conn (if stays then some s.peer else none)
          sent := sv.sent ++ s.out.map (fun r => (conn, r)) }
  | .gc mem => { sv with app := sv.app.runAttachmentGc mem }

def machine (rl : Relay) : Machine (Server rl) Input := ⟨start rl, step⟩

abbrev run (rl : Relay) (inputs : List Input) : Server rl := (machine rl).run inputs

theorem run_step (pre : List Input) (x : Input) : run rl (pre ++ [x]) = (run rl pre).step x :=
  (machine rl).run_snoc pre x

theorem step_app (sv : Server rl) (hp : sv.peers conn = some p) (f : Frame) (c : Circumstance) :
    (sv.step (.frame conn f c)).app = ((sv.session p).handle conn f c).1.app := by
  simp [step, hp]

theorem step_sent (sv : Server rl) (hp : sv.peers conn = some p) (f : Frame) (c : Circumstance) :
    (sv.step (.frame conn f c)).sent =
      sv.sent ++ ((sv.session p).handle conn f c).1.out.map (fun r => (conn, r)) := by
  simp [step, hp]

end Server

/-- The text of the message is this command with this value at position 1. -/
def Carries (rl : Relay) (f : Frame) (cmd : Str) (m : Structured) : Prop :=
  ∃ payload msg, f = .text payload ∧ rl.ext.fromJson payload = some msg ∧
    rl.ext.asStringView (msg.item 0) = some cmd ∧ m = msg.item 1

namespace Session

/-- What a message can do to the application and to the pending file, one case for
each way to the storage. -/
inductive Effect (s : Session rl) (conn : Nat) (f : Frame)
    (c : Circumstance) : Session rl → Prop where
  | quiet (quiet : Quiet s s') : Effect s conn f c s'
  | broadcast (m : Structured) (id : Str) (ev : Event) (carried : Carries rl f (str "EVENT") m)
      (passed : Passed s c m false id ev)
        (kind : ev.kind ≥ Kind.ephemeralBegin ∧ ev.kind < Kind.ephemeralEnd)
      (storage : s'.app.storage = s.app.storage)
        (attachments : s'.app.attachments = s.app.attachments)
      (published : s'.app.published = s.app.published ++ [(ev, some conn)])
      (fileEvent : s'.peer.fileEvent = s.peer.fileEvent)
        (noLimit : s'.peer.noLimit = s.peer.noLimit) :
      Effect s conn f c s'
  | published (m : Structured) (id : Str) (ev : Event) (old new : DocID)
    (carried : Carries rl f (str "EVENT") m)
      (passed : Passed s c m false id ev) (letIn : LetIn s c ev)
        (kind : ev.kind ≠ Kind.eventDeletion)
      (replaces : s.app.docToReplace ev = some old)
        (wrote : App.Wrote s.app s'.app (.event ev) old new)
      (published : s'.app.published = s.app.published ++ [(ev, some conn)])
      (fileEvent : s'.peer.fileEvent = s.peer.fileEvent)
        (noLimit : s'.peer.noLimit = s.peer.noLimit) :
      Effect s conn f c s'
  | deleted (m : Structured) (id : Str) (ev e : Event) (i new : DocID)
    (carried : Carries rl f (str "EVENT") m)
      (passed : Passed s c m false id ev) (letIn : LetIn s c ev)
        (kind : ev.kind = Kind.eventDeletion)
      (there : (i, .event e) ∈ s.app.records) (target : e.id = deletionTarget c.mem ev)
        (author : e.author = ev.author)
      (wrote : App.Wrote s.app s'.app (.event ev) i new)
      (published : s'.app.published = s.app.published ++ [(ev, some conn)])
      (fileEvent : s'.peer.fileEvent = s.peer.fileEvent)
        (noLimit : s'.peer.noLimit = s.peer.noLimit) :
      Effect s conn f c s'
  | awaits (m : Structured) (id : Str) (ev : Event) (carried : Carries rl f (str "FILE") m)
      (passed : Passed s c m true id ev) (letIn : LetIn s c ev)
      (checked : fileCheck rl.options.attachmentMaxSize ev = .ok ()) (app : s'.app.Same s.app)
      (fileEvent : s'.peer.fileEvent = some ev) (noLimit : s'.peer.noLimit = s.peer.noLimit) :
      Effect s conn f c s'
  | seen (ev : Event) (pending : s.peer.fileEvent = some ev) (app : s'.app.Same s.app)
      (fileEvent : s'.peer.fileEvent = some { ev with nip97 := true })
        (noLimit : s'.peer.noLimit = s.peer.noLimit) :
      Effect s conn f c s'
  | dropped (app : s'.app.Same s.app) (fileEvent : s'.peer.fileEvent = none)
      (noLimit : s'.peer.noLimit = s.peer.noLimit) : Effect s conn f c s'
  | reused (data : Str) (ev : Event) (old new : DocID) (frame : f = .binary data)
      (pending : s.peer.fileEvent = some ev)
      (hash : rl.ext.sha256 data = fromHex c.mem.attachment (ev.getTagContent (str "x")))
      (attachment : s.app.findAttachment (rl.ext.sha256 data) ≠ 0)
      (replaces : s.app.docToReplace { ev with nip97 := true } = some old)
      (wrote : App.Wrote s.app s'.app (.event { ev with nip97 := true }) old new)
      (published : s'.app.published = s.app.published ++ [({ ev with nip97 := true }, none)])
      (fileEvent : s'.peer.fileEvent = none) (noLimit : s'.peer.noLimit = s.peer.noLimit) :
      Effect s conn f c s'
  | uploaded (data : Str) (ev : Event) (old new new' : DocID) (a : App rl)
    (frame : f = .binary data)
      (pending : s.peer.fileEvent = some ev)
      (hash : rl.ext.sha256 data = fromHex c.mem.attachment (ev.getTagContent (str "x")))
      (attachment : s.app.findAttachment (rl.ext.sha256 data) = 0)
      (replaces : s.app.docToReplace { ev with nip97 := true } = some old)
      (wrote : App.Wrote s.app a (.event { ev with nip97 := true }) old new)
      (wroteFile : App.Wrote a s'.app (.attachment ⟨rl.ext.sha256 data, data⟩) 0 new')
      (published : s'.app.published = s.app.published ++ [({ ev with nip97 := true }, none)])
      (fileEvent : s'.peer.fileEvent = none) (noLimit : s'.peer.noLimit = s.peer.noLimit) :
      Effect s conn f c s'

end Session

end NostrServer
