import NostrServer.App

namespace NostrServer
open Docdb

/-- The messages a peer sends. An event sent for a query carries its author's karma. -/
inductive Reply where
  | auth (nonce : Str)
  | ok (id : Str) (accepted : Bool) (text : Str)
  | event (subid : Str) (ev : Event) (karma : Option Int32)
  | eose (subid : Str)
  | count (subid : Str) (n : Nat)
  | notice (text : Str)
  | retrieve (id : Str) (accepted : Bool) (text : Str)
  | binary (data : Str)
deriving DecidableEq

structure Peer where
  rateQueue : List Int := []
  authent : Bool := false
  noLimit : Bool := false
  authPubkey : Pubkey
  authNonce : Str
  fileEvent : Option Event := none
  subscriptions : List (Str × List Filter) := []

/-- What the arrays made while one message was handled held before `from_hex`. -/
structure Memory where
  event : EventMemory
  target : Pubkey
  deletion : ID
  attachment : ID
  retrieved : ID
  filters : Nat → Nat → Nat → Binary 32
  index : Nat → IndexMemory

/-- What one message is handled with: the arrays' memory, the clock in nanoseconds,
and whether the stream takes the n-th event of an answer. -/
structure Circumstance where
  mem : Memory
  now : Int
  takes : Nat → Bool := fun _ => true

/-- The application as one of its peers sees it, and what that peer has sent. -/
structure Session (rl : Relay) where
  app : App rl
  peer : Peer
  out : List Reply := []

/-- `RateLimiter::test_and_add`; times are in nanoseconds. -/
def testAndAdd (window limit : Nat) (q : List Int) (pt : Int) : Bool × List Int :=
  if window = 0 then (true, q)
  else
    let q := q.dropWhile (fun t => t < pt - window * 1000000000)
    if q.length ≥ limit then (false, q) else (true, q ++ [pt])

def powNibble (c : UInt8) : Option UInt8 :=
  if c ≥ 48 ∧ c ≤ 57 then some (c - 48)
  else if c ≥ 65 ∧ c ≤ 70 then some (c - 65 + 10)
  else if c ≥ 97 ∧ c ≤ 102 then some (c - 97 + 10)
  else none

def nibbleSizes : List Nat := [4, 3, 2, 2, 1, 1, 1, 1, 0, 0, 0, 0, 0, 0, 0, 0]

/-- The loop of `Peer::check_pow`. A text of zeros alone, or an empty one, passes. -/
def checkPowLoop (pow : Int) (bits : Nat) : Str → Bool
  | [] => true
  | c :: id =>
    match powNibble c with
    | none => false
    | some nibble =>
      if nibble ≠ 0 then decide (pow ≤ (bits + nibbleSizes.getD nibble.toNat 0 : Nat))
      else checkPowLoop pow (bits + 4) id

def checkPow (pow : Int) (id : Str) : Bool := checkPowLoop pow 0 id

def decimal (n : Int) : Str := str (toString n)

/-- `std::strtoull` with base 10, and where it stopped. -/
def strtoull (s : Str) : Nat × Str :=
  let t := s.dropWhile (fun c => c == 32 || (9 ≤ c && c ≤ 13))
  let (negative, t) := match t with
    | 45 :: t => (true, t)
    | 43 :: t => (false, t)
    | t => (false, t)
  let digits := t.takeWhile (fun c => 48 ≤ c && c ≤ 57)
  if digits.isEmpty then (0, s)
  else
    let v : Nat := digits.foldl (fun v c => v * 10 + (c.toNat - 48)) 0
    let v := if v ≥ 2 ^ 64 then 2 ^ 64 - 1 else if negative then (2 ^ 64 - v) % 2 ^ 64 else v
    (v, t.dropWhile (fun c => 48 ≤ c && c ≤ 57))

namespace Session
variable {rl : Relay} (s : Session rl)

def send (r : Reply) : Session rl := { s with out := s.out ++ [r] }

def sendNotice (text : Str) : Session rl := s.send (.notice text)

def sendError (id text : Str) : Session rl := s.send (.ok id false text)

/-- The handlers of `on_event_generic`, innermost class first. -/
def caught (id : Str) : Exn → Session rl
  | .eventParse e => s.sendError id (str "invalid: " ++ e.message)
  | .duplicateKey => s.send (.ok id true (str "duplicate:"))
  | .blocked text => s.sendError id (str "blocked: " ++ text)
  | .invalidArgument text => s.sendError id (str "invalid: " ++ text)
  | .badCast => s.sendError id (str "invalid: Malformed event")

/-- The filter `event_deletion` looks for the target with. -/
def deletionFilter (unwritten : ID) (event : Event) : Filter :=
  { ids := [.full (fromHex unwritten (event.getTagContent (str "e")))] }

inductive BatchOp where
  | put (old : DocID)
  | erase (i : DocID)

/-- The loop of `event_deletion` over the rows found: what it puts in its batch. -/
def deletionBatch (rs : Records EventOrAttachment) (event : Event) :
    Bool → List DocID → Except Exn (List BatchOp)
  | _, [] => .ok []
  | deletedSomething, i :: rows =>
    match rs.find i with
    | some (.event ev) =>
      if ev.author ≠ event.author then .error (.invalidArgument (str "pubkey missmatch"))
      else
        match deletionBatch rs event true rows with
        | .ok ops => .ok ((if deletedSomething then .erase i else .put i) :: ops)
        | .error e => .error e
    | _ => deletionBatch rs event deletedSomething rows

def commitBatch (mem : Nat → IndexMemory) (event : Event) (a : App rl) :
    List BatchOp → Option (App rl)
  | [] => some a
  | .put old :: ops => (a.put (mem ops.length) (.event event) old).bind
    (fun a => commitBatch mem event a ops)
  | .erase i :: ops => commitBatch mem event (a.erase (mem ops.length) i) ops

def eventDeletion (mem : Memory) (self : Nat) (event : Event) : Except Exn (Session rl) :=
  let rows := rl.engine.sets.items
    (rl.engine.findInIndex s.app.records [deletionFilter mem.deletion event])
  match deletionBatch s.app.records event false (rows.map Prod.fst) with
  | .error e => .error e
  | .ok ops =>
    match commitBatch mem.index event s.app ops with
    | none => .error .duplicateKey
    | some a =>
      let a := if ops.isEmpty then a else a.publishEvent event (some self)
      .ok ({ s with app := a }.send (.ok event.id.toHex true []))

/-- The whitelist check of `on_event_generic`; what it throws, if anything. -/
def whitelistCheck (mem : Memory) (event : Event) : Session rl × Option Exn :=
  if !s.peer.noLimit && rl.options.whitelisting && !event.trusted then
    let (invited, a) := s.app.checkWhitelist event.author
    let s := { s with app := a }
    if invited then (s, none)
    else if event.kind = Kind.encryptedDirectMessages ∨ event.kind = Kind.giftWrapEvent then
      if a.isHomeUser (fromHex mem.target (event.getTagContent (str "p"))) then (s, none)
      else (s, some (.blocked (str "Target user not found")))
    else (s, some (.blocked (str "Not invited")))
  else (s, none)

/-- The end of `on_event_generic`: deletions, and everything else that is stored. -/
def store (mem : Memory) (self : Nat) (noSpecialEvents : Bool) (id : Str) (event : Event)
    (onVerify : Str → Event → Session rl → Except Exn (Session rl)) : Except Exn (Session rl) :=
  if event.kind = 5 then
    if noSpecialEvents then .error (.invalidArgument (str "This event is not allowed here"))
    else s.eventDeletion mem self event
  else onVerify id event s

/-- `on_event_generic` from the signature on. -/
def verified (mem : Memory) (self : Nat) (noSpecialEvents : Bool) (id : Str) (event : Event)
    (onVerify : Str → Event → Session rl → Except Exn (Session rl)) : Session rl :=
  if !event.verify rl.ext then s.caught id (.invalidArgument (str "Signature verification failed"))
  else if event.kind ≥ Kind.ephemeralBegin ∧ event.kind < Kind.ephemeralEnd then
    if noSpecialEvents then s.caught id (.invalidArgument (str "This event is not allowed here"))
    else { s with app := s.app.publishEvent event (some self) }.send (.ok id true [])
  else if !s.peer.noLimit && rl.options.readOnly then
    s.caught id (.blocked (str "Sorry, server is in read_only mode"))
  else
    match s.whitelistCheck mem event with
    | (s, some e) => s.caught id e
    | (s, none) =>
      match s.store mem self noSpecialEvents id event onVerify with
      | .ok s => s
      | .error e => s.caught id e

def limited (now : Int) : Bool × Session rl :=
  if s.peer.noLimit then (true, s)
  else
    let (ok, q) := testAndAdd rl.options.eventRateWindow rl.options.eventRateLimit
      s.peer.rateQueue now
    (ok, { s with peer := { s.peer with rateQueue := q } })

/-- `event.trusted` as `on_event_generic` sets it. -/
def trust (event : Event) : Event :=
  if s.peer.authent && s.app.isHomeUser s.peer.authPubkey then { event with trusted := true }
  else event

def onEventGeneric (c : Circumstance) (self : Nat) (msg : Structured)
    (onVerify : Str → Event → Session rl → Except Exn (Session rl)) (noSpecialEvents : Bool) :
    Session rl :=
  match rl.ext.asString (msg.field (str "id")) with
  | none => s.caught [] .badCast
  | some id =>
    match Event.fromStructured rl.ext c.mem.event msg with
    | .error e => s.caught id e
    | .ok event =>
      if s.app.findEventById event.id ≠ 0 ∧
        noSpecialEvents = false then s.send (.ok id true (str "duplicate: ok"))
      else
        match s.limited c.now with
        | (false, s) => s.sendError id (str "rate-limited: you can only post " ++
          decimal rl.options.eventRateLimit ++
            str " events every " ++ decimal rl.options.eventRateWindow ++ str " seconds")
        | (true, s) =>
          if !s.peer.noLimit && rl.options.pow > 0 && !checkPow rl.options.pow id then
            s.sendError id (str "pow: required difficulty " ++ decimal rl.options.pow)
          else s.verified c.mem self noSpecialEvents id (s.trust event) onVerify

def publishVerified (mem : Memory) (self : Nat) (id : Str) (event : Event) (s : Session rl) :
    Except Exn (Session rl) :=
  match s.app.publish (mem.index 0) event (some self) with
  | .ok a => .ok ({ s with app := a }.send (.ok id true []))
  | .error e => .error e

def onEvent (c : Circumstance) (self : Nat) (msg : Structured) : Session rl :=
  s.onEventGeneric c self (msg.item 1) (publishVerified c.mem self) false

inductive FileError where
  | malformed | unsupportedKind | maxSize

/-- The loop of `on_file` over the tags: mime, hash and size. -/
def fileFields : List Tag → Str → Str → Str → Option (Str × Str × Str)
  | [], mime, hash, size => some (mime, hash, size)
  | x :: tags, mime, hash, size =>
    if x.tag = str "x" then
      if hash.isEmpty then fileFields tags mime x.content size else none
    else if x.tag = str "m" then
      if mime.isEmpty then fileFields tags x.content hash size else none
    else if x.tag = str "size" then
      if size.isEmpty then fileFields tags mime hash x.content else none
    else fileFields tags mime hash size

/-- What `on_file` asks of an event before it waits for the data. `size.c_str()` ends
at the first zero. -/
def fileCheck (maxSize : Nat) (event : Event) : Except FileError Unit :=
  if event.kind ≠ Kind.fileHeader then .error .unsupportedKind
  else
    match fileFields event.tags [] [] [] with
    | none => .error .malformed
    | some (mime, hash, size) =>
      if size.isEmpty ∨ mime.isEmpty ∨ hash.length ≠ 64 then .error .malformed
      else
        let (sz, rest) := strtoull (size.takeWhile (fun c => c ≠ 0))
        if !rest.isEmpty then .error .malformed
        else if sz > maxSize then .error .maxSize
        else .ok ()

def awaitFile (id : Str) (event : Event) (s : Session rl) : Except Exn (Session rl) :=
  match fileCheck rl.options.attachmentMaxSize event with
  | .ok () =>
    .ok ({ s with peer := { s.peer with fileEvent := some event } }.send
      (.ok id true (str "continue")))
  | .error .malformed => .ok (s.send (.ok id false (str "invalid: malformed")))
  | .error .unsupportedKind => .ok (s.send (.ok id false (str "invalid: unsupported kind")))
  | .error .maxSize =>
    .ok (s.send (.ok id false (str "max_size: " ++ decimal rl.options.attachmentMaxSize)))

def onFile (c : Circumstance) (self : Nat) (msg : Structured) : Session rl :=
  s.onEventGeneric c self (msg.item 1) awaitFile true

/-- `Peer::processBinaryMessage`; what it rethrows ends the connection. -/
def processBinaryMessage (mem : Memory) (msgText : Str) : Session rl × Option Exn :=
  match s.peer.fileEvent with
  | none => (s.sendNotice (str "unsupported binary message"), none)
  | some ev =>
    let hash := rl.ext.sha256 msgText
    let needHash := fromHex mem.attachment (ev.getTagContent (str "x"))
    let sz := (strtoull ((ev.getTagContent (str "size")).takeWhile (fun c => c ≠ 0))).1
    if sz ≠ msgText.length ∨ hash ≠ needHash then
      (s.send (.ok ev.id.toHex false (str "invalid: file mismatch")), none)
    else
      let ev := { ev with nip97 := true }
      if s.app.findEventById ev.id ≠ 0 then
        ({ s with peer := { s.peer with fileEvent := some ev } }.send
          (.ok ev.id.toHex true (str "duplicate")), none)
      else
        let done := if s.app.findAttachment hash ≠ 0 then s.app.publish (mem.index 0) ev none
          else s.app.publishFile (mem.index 0) (mem.index 1) ev ⟨hash, msgText⟩ none
        let s := { s with peer := { s.peer with fileEvent := none } }
        match done with
        | .ok a => ({ s with app := a }.send (.ok ev.id.toHex true []), none)
        | .error e => (s.send (.ok ev.id.toHex false (str "error: internal error")), some e)

/-- The limit of a REQ: the greatest of its filters' limits, none when one has none. -/
def reqLimit (flts : List Filter) : Option Nat :=
  flts.foldl (fun limit f => match f.limit with
    | some n => limit.map (fun l => max l n.toNat)
    | none => none) (some 0)

/-- The filters of a REQ or a COUNT; `none` when one does not convert. -/
def requestFilters (ext : External) (mem : Memory) (rq : List Structured) : Option (List Filter) :=
  (rq.drop 2).zipIdx.mapM (fun f => Filter.create ext (mem.filters f.2) f.1)

/-- The loop of `on_req` over the sorted candidates: what it sends, and whether it
got through. `n` events are sent already. -/
def answer (rl : Relay) (a : App rl) (takes : Nat → Bool) (flts : List Filter) (subid : Str) :
    Nat → Option Nat → List DocID → List Reply × Bool
  | _, _, [] => ([], true)
  | n, limit, cd :: candidates =>
    if limit = some 0 then ([], true)
    else
      match a.find cd with
      | some (.event ev) =>
        if flts.any (fun f => f.test rl.ext.hasher ev) then
          if takes n then
            let (sent, through) := answer rl a takes flts subid (n + 1)
              (limit.map (· - 1)) candidates
            (.event subid ev (some (a.getKarma ev.author)) :: sent, through)
          else ([.event subid ev (some (a.getKarma ev.author))], false)
        else answer rl a takes flts subid n limit candidates
      | _ => answer rl a takes flts subid n limit candidates

def storedAnswer (takes : Nat → Bool) (flts : List Filter) (subid : Str) : List Reply × Bool :=
  let candidates := rl.engine.findInIndex s.app.records flts
  if rl.engine.sets.inverted candidates then ([], true)
  else answer rl s.app takes flts subid 0 (reqLimit flts)
    ((rl.engine.sort (rl.engine.sets.items candidates)).map Prod.fst)

/-- `Peer::on_req`; `none` when a conversion throws. -/
def onReq (c : Circumstance) (msg : Structured) : Option (Session rl) :=
  match rl.ext.asString (msg.item 1), requestFilters rl.ext c.mem msg.items with
  | some subid, some flts =>
    match s.storedAnswer c.takes flts subid with
    | (sent, false) => some { s with out := s.out ++ sent }
    | (sent, true) => some { s with
        peer := { s.peer with subscriptions := s.peer.subscriptions ++ [(subid, flts)] }
        out := s.out ++ sent ++ [.eose subid] }
  | _, _ => none

def onCount (c : Circumstance) (msg : Structured) : Option (Session rl) :=
  match rl.ext.asString (msg.item 1), requestFilters rl.ext c.mem msg.items with
  | some subid, some flts =>
    let count := (rl.engine.sets.items (rl.engine.findInIndex s.app.records flts)).length
    some (s.send (.count subid count))
  | _, _ => none

def onClose (msg : Structured) : Option (Session rl) :=
  (rl.ext.asString (msg.item 1)).map (fun id =>
    { s with peer := { s.peer with
      subscriptions := s.peer.subscriptions.filter (fun sb => sb.1 ≠ id) } })

/-- `Peer::prepare_auth_challenge`: fifteen characters, as `rnum` draws them. -/
def prepareAuthChallenge (rnum : Nat → UInt8) : Str := (List.range 15).map rnum

/-- The checks of `process_auth`; what it throws, or the authenticated key. -/
def authCheck (c : Circumstance) (jevent : Structured) : Except Exn Pubkey :=
  match Event.fromStructured rl.ext c.mem.event jevent with
  | .error e => .error e
  | .ok event =>
    if !event.verify rl.ext then .error (.invalidArgument (str "Signature verification failed"))
    else if event.kind ≠ Kind.clientAuthentication then
      .error (.invalidArgument (str "Unsupported kind"))
    else if (c.now - event.createdAt.toInt * 1000000000).tdiv 60000000000 > 10 then
      .error (.invalidArgument (str "Challenge expired"))
    else if event.getTagContent (str "challenge") ≠ s.peer.authNonce then
      .error (.invalidArgument (str "Invalid challenge"))
    else .ok event.author

/-- `e.what()` of the exceptions `process_auth` reports. -/
def Exn.what : Exn → Str
  | .eventParse e => e.message
  | .duplicateKey => []
  | .blocked text => text
  | .invalidArgument text => text
  | .badCast => str "std::bad_cast"

/-- `Peer::process_auth`; `none` when the id is no text. -/
def processAuth (c : Circumstance) (jevent : Structured) : Option (Session rl) :=
  (rl.ext.asStringView (jevent.field (str "id"))).map (fun id =>
    match s.authCheck c jevent with
    | .ok pk =>
      { s with peer := { s.peer with authent := true, authPubkey := pk } }.send
        (.ok id true (str "Welcome to relay!"))
    | .error e => s.sendError id (str "restricted:" ++ Exn.what e))

/-- The attachment `on_retrieve` sends for an event's id. -/
def retrievable (mem : Memory) (id : Str) : Option Attachment :=
  match s.app.find (s.app.findEventById (fromHex mem.retrieved id)) with
  | some (.event event) =>
    if event.nip97 then
      match s.app.find (s.app.findAttachment
        (fromHex mem.attachment (event.getTagContent (str "x")))) with
      | some (.attachment att) => some att
      | _ => none
    else none
  | _ => none

def onRetrieve (c : Circumstance) (msg : Structured) : Option (Session rl) :=
  (rl.ext.asString (msg.item 1)).map (fun id =>
    match s.retrievable c.mem id with
    | some att => (s.send (.ok id true [])).send (.binary att.data)
    | none => s.send (.retrieve id false (str "missing: not found")))

/-- `Peer::processMessage`. A message that is too long is handled all the same. -/
def processMessage (c : Circumstance) (self : Nat) (msgText : Str) : Session rl :=
  let s := if msgText.length > rl.options.maxMessageSize
    then s.sendNotice (str "Text message is too long") else s
  let done : Option (Session rl) :=
    match rl.ext.fromJson msgText with
    | none => none
    | some msg =>
      match rl.ext.asStringView (msg.item 0) with
      | none => none
      | some cmd =>
        if cmd = str "EVENT" then some (s.onEvent c self msg)
        else if cmd = str "REQ" then s.onReq c msg
        else if cmd = str "COUNT" then s.onCount c msg
        else if cmd = str "CLOSE" then s.onClose msg
        else if cmd = str "AUTH" then s.processAuth c (msg.item 1)
        else if cmd = str "FILE" then some (s.onFile c self msg)
        else if cmd = str "RETRIEVE" then s.onRetrieve c msg
        else some (s.sendNotice (str "Unknown command: " ++ cmd))
  done.getD (s.sendNotice (str "error: Internal error - command ignored"))

end Session

end NostrServer
