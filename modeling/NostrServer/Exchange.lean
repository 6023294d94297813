import NostrServer.AppSteps
import NostrServer.Lib.Runs

namespace NostrServer
open Docdb

/-- The batches writers commit before they publish: those of `App::publish`, of its
overload with an attachment and of `event_deletion`. What a batch replaces was looked
up earlier and may be anything by now. -/
inductive Write where
  | publish (mem : IndexMemory) (ev : Event) (old : DocID)
  | file (mem mem' : IndexMemory) (ev : Event) (old : DocID) (attach : Attachment) (attOld : DocID)
  | deletion (mem : Nat → IndexMemory) (ev : Event) (ops : List Session.BatchOp)

def Write.event : Write → Event
  | publish _ ev _ => ev
  | file _ _ ev _ _ _ => ev
  | deletion _ ev _ => ev

/-- The commit; `none` when it throws, and for a deletion that found nothing. -/
def Write.commit {rl : Relay} (a : App rl) : Write → Option (App rl)
  | publish mem ev old => a.put mem (.event ev) old
  | file mem mem' ev old attach attOld =>
    (a.put mem (.event ev) old).bind (fun a' => a'.put mem' (.attachment attach) attOld)
  | deletion mem ev ops => if ops.isEmpty then none else Session.commitBatch mem ev a ops

/-- A subscription, and how much had been sent when its REQ came. -/
structure Subscription where
  subid : Str
  filters : List Filter
  opened : Nat
deriving DecidableEq

def Subscription.passes (hasher : Str → UInt64) (sub : Subscription) (ev : Event) : Bool :=
  sub.filters.any (fun f => f.test hasher ev)

/-- Where `on_req` stands. It holds the peer's lock unless it is `idle`. -/
inductive Request where
  | idle
  | asked (sub : Subscription)
  | sending (sub : Subscription) (limit : Option Nat) (candidates : List DocID)

/-- One peer among the writers, each step of a thread on its own: writers put in the storage
and then hand to the publisher, the peer's listener takes what was handed out, and `on_req`
holds the peer's lock from its query to the registration. -/
structure Exchange (rl : Relay) where
  app : App rl
  /-- What is put and not yet handed to the publisher. -/
  writing : List (Event × Option Nat) := []
  /-- How many of the published events the peer's subscriber has taken. -/
  heard : Nat
  /-- The event `listen_publisher` has taken and `filter_event` has not seen. -/
  listener : Option Event := none
  request : Request := .idle
  subscriptions : List Subscription := []
  out : List Reply := []

namespace Exchange
variable {rl : Relay}

inductive Action where
  | write (w : Write) (publisher : Option Nat)
  | publish (writer : Nat)
  | erase (mem : IndexMemory) (i : DocID)
  | next
  | filterEvent
  | ask (subid : Str) (flts : List Filter)
  | query
  | proceed (taken : Bool)
  | close (id : Str)

def connect (a : App rl) (writing : List (Event × Option Nat)) : Exchange rl :=
  { app := a, writing, heard := a.published.length }

section
variable (x : Exchange rl)

def write (w : Write) (publisher : Option Nat) : Exchange rl :=
  match w.commit x.app with
  | some a => { x with app := a, writing := x.writing ++ [(w.event, publisher)] }
  | none => x

def publish (writer : Nat) : Exchange rl :=
  match x.writing[writer]? with
  | some w => { x with app := x.app.publishEvent w.1 w.2, writing := x.writing.eraseIdx writer }
  | none => x

/-- `co_await _subscriber.next()`. -/
def next : Exchange rl :=
  match x.listener, x.app.published[x.heard]? with
  | none, some v => { x with heard := x.heard + 1, listener := some v.1 }
  | _, _ => x

/-- `Peer::filter_event`, once it has the lock. -/
def filterEvent : Exchange rl :=
  match x.request, x.listener with
  | .idle, some ev => { x with
      listener := none
      out := x.out ++ (x.subscriptions.filter (fun sub => sub.passes rl.ext.hasher ev)).map
        (fun sub => .event sub.subid ev none) }
  | _, _ => x

def ask (subid : Str) (flts : List Filter) : Exchange rl :=
  match x.request with
  | .idle => { x with request := .asked ⟨subid, flts, x.out.length⟩ }
  | _ => x

def candidates (flts : List Filter) : List DocID :=
  let candidates := rl.engine.findInIndex x.app.records flts
  if rl.engine.sets.inverted candidates then []
  else (rl.engine.sort (rl.engine.sets.items candidates)).map Prod.fst

def query : Exchange rl :=
  match x.request with
  | .asked sub => { x with
    request := .sending sub (Session.reqLimit sub.filters) (x.candidates sub.filters) }
  | _ => x

def register (sub : Subscription) : Exchange rl :=
  { x with
    request := .idle, subscriptions := x.subscriptions ++ [sub]
    out := x.out ++ [.eose sub.subid] }

/-- One turn of the loop over the candidates; `taken` is what `send` answers. -/
def consider (sub : Subscription) (limit : Option Nat) (cd : DocID) (cds : List DocID)
    (taken : Bool) : Exchange rl :=
  match x.app.find cd with
  | some (.event ev) =>
    if sub.passes rl.ext.hasher ev then
      { x with
        request := if taken then .sending sub (limit.map (· - 1)) cds else .idle
        out := x.out ++ [.event sub.subid ev (some (x.app.getKarma ev.author))] }
    else { x with request := .sending sub limit cds }
  | _ => { x with request := .sending sub limit cds }

/-- `on_req` goes on: to the next candidate, or to the EOSE and the registration. -/
def proceed (taken : Bool) : Exchange rl :=
  match x.request with
  | .sending sub limit (cd :: cds) =>
    if limit = some 0 then x.register sub else x.consider sub limit cd cds taken
  | .sending sub _ [] => x.register sub
  | _ => x

def close (id : Str) : Exchange rl :=
  match x.request with
  | .idle => { x with subscriptions := x.subscriptions.filter (fun sub => sub.subid ≠ id) }
  | _ => x

/-- An action whose thread cannot take it now changes nothing. -/
def step : Action → Exchange rl
  | .write w publisher => x.write w publisher
  | .publish writer => x.publish writer
  | .erase mem i => { x with app := x.app.erase mem i }
  | .next => x.next
  | .filterEvent => x.filterEvent
  | .ask subid flts => x.ask subid flts
  | .query => x.query
  | .proceed taken => x.proceed taken
  | .close id => x.close id

end

def machine (start : Exchange rl) : Machine (Exchange rl) Action := ⟨start, step⟩

/-- A writer's two steps in a row are what `App::publish` does. -/
theorem publish_uninterleaved (x : Exchange rl) (hd : x.app.docToReplace ev = some old)
    (hk : ev.kind ≠ Kind.eventDeletion) (hp : x.app.publish mem ev publisher = .ok a) :
    (x.write (.publish mem ev old) publisher).publish x.writing.length = { x with app := a } := by
  simp only [App.publish, hd] at hp
  cases hput : x.app.put mem (.event ev) old with
  | none => simp [hput] at hp
  | some a' =>
    simp only [hput, hk, ↓reduceIte, Except.ok.injEq] at hp
    subst hp
    simp [write, Write.commit, publish, Write.event, hput, List.eraseIdx_append_of_length_le]

structure Answered (x y : Exchange rl) (sub : Subscription) (sent : List Reply × Bool) : Prop where
  idle : y.request = .idle
  app : y.app = x.app
  out : y.out = x.out ++ sent.1 ++ if sent.2 then [.eose sub.subid] else []
  subscriptions : y.subscriptions = x.subscriptions ++ if sent.2 then [sub] else []

theorem register_answered (x : Exchange rl) (sub : Subscription) :
    x.Answered (x.register sub) sub ([], true) :=
  ⟨rfl, rfl, by simp [register], rfl⟩

/-- Left alone, `on_req` gets through its candidates as `Session.answer` does. -/
theorem proceed_answers (takes : Nat → Bool) {x : Exchange rl}
    (h : x.request = .sending sub limit cds) (n : Nat) :
    ∃ taken : List Bool, x.Answered (taken.foldl proceed x) sub
      (Session.answer rl x.app takes sub.filters sub.subid n limit cds) := by
  induction cds generalizing x n limit with
  | nil =>
    refine ⟨[true], ?_⟩
    simpa [proceed, h, Session.answer] using x.register_answered sub
  | cons cd cds ih =>
    by_cases hl : limit = some 0
    · refine ⟨[true], ?_⟩
      simpa [proceed, h, hl, Session.answer] using x.register_answered sub
    · have skip (hs : x.proceed true = { x with request := .sending sub limit cds }) :
        ∃ taken : List Bool,
          x.Answered (taken.foldl proceed x) sub
            (Session.answer rl x.app takes sub.filters sub.subid n limit cds) := by
        obtain ⟨taken, ha⟩ := ih (x := { x with request := .sending sub limit cds }) rfl n
        exact ⟨true :: taken, by rw [List.foldl_cons, hs]; exact ⟨ha.idle, ha.app, ha.out,
          ha.subscriptions⟩⟩
      simp only [Session.answer, hl, ↓reduceIte]
      split
      · rename_i ev hf
        by_cases hp : sub.filters.any (fun f => f.test rl.ext.hasher ev) = true
        · simp only [hp, ↓reduceIte]
          cases ht : takes n with
          | false =>
            refine ⟨[false], ?_⟩
            simp only [List.foldl_cons, List.foldl_nil, proceed, h, hl, consider, hf,
              Subscription.passes, hp, ↓reduceIte]
            exact ⟨rfl, rfl, by simp, by simp⟩
          | true =>
            have hreq : (x.proceed true).request = .sending sub (limit.map (· - 1)) cds := by
              simp [proceed, h, hl, consider, hf, Subscription.passes, hp]
            obtain ⟨taken, ha⟩ := ih hreq (n + 1)
            have happ : (x.proceed true).app = x.app := by
              simp [proceed, h, hl, consider, hf, Subscription.passes, hp]
            have hout : (x.proceed true).out =
                x.out ++ [.event sub.subid ev (some (x.app.getKarma ev.author))] := by
              simp [proceed, h, hl, consider, hf, Subscription.passes, hp]
            have hsubs : (x.proceed true).subscriptions = x.subscriptions := by
              simp [proceed, h, hl, consider, hf, Subscription.passes, hp]
            rw [happ] at ha
            refine ⟨true :: taken, ha.idle, ha.app.trans happ, ?_, ?_⟩
            · rw [List.foldl_cons, ha.out, hout]
              simp
            · rw [List.foldl_cons, ha.subscriptions, hsubs]
              rfl
        · simp only [hp, Bool.false_eq_true, ↓reduceIte]
          exact skip (by simp [proceed, h, hl, consider, hf, Subscription.passes, hp])
      · rename_i hf
        apply skip
        simp only [proceed, h, hl, ↓reduceIte, consider]

/-- `Session.onReq` is one order of the steps: the peer's request with nobody between. -/
theorem onReq_uninterleaved {s s' : Session rl} (h : s.onReq c msg = some s') (x : Exchange rl)
    (happ : x.app = s.app) (hout : x.out = s.out) (hidle : x.request = .idle)
    (hsubs : x.subscriptions.map (fun sub => (sub.subid, sub.filters)) = s.peer.subscriptions) :
    ∃ (subid : Str) (flts : List Filter) (taken : List Bool),
      let y := taken.foldl proceed (x.ask subid flts).query
      y.request = .idle ∧ y.app = s'.app ∧ y.out = s'.out ∧
      y.subscriptions.map (fun sub => (sub.subid, sub.filters)) = s'.peer.subscriptions := by
  unfold Session.onReq at h
  split at h
  · rename_i subid flts _ _
    let sub : Subscription := ⟨subid, flts, x.out.length⟩
    have hq : (x.ask subid flts).query =
        { x with request := .sending sub (Session.reqLimit flts) (x.candidates flts) } := by
      simp [ask, query, hidle, sub, candidates]
    obtain ⟨taken, ha⟩ := proceed_answers c.takes (x := (x.ask subid flts).query) (by rw [hq]) 0
    have hstored : s.storedAnswer c.takes flts subid =
        Session.answer rl x.app c.takes flts subid 0 (Session.reqLimit flts)
          (x.candidates flts) := by
      simp only [Session.storedAnswer, candidates, happ]
      split <;> simp [Session.answer]
    have hbefore : (x.ask subid flts).query.app = x.app ∧ (x.ask subid flts).query.out = x.out ∧
        (x.ask subid flts).query.subscriptions = x.subscriptions := by simp [hq]
    rw [hbefore.1, ← hstored] at ha
    have hends := ha.app.trans hbefore.1
    have hsaid := ha.out
    have hadded := ha.subscriptions
    rw [hbefore.2.1] at hsaid
    rw [hbefore.2.2] at hadded
    refine ⟨subid, flts, taken, ha.idle, ?_⟩
    rw [hends, hsaid, hadded]
    split at h
    · rename_i sent hs
      simp only [Option.some.injEq] at h
      subst h
      simp [hs, happ, hout, hsubs]
    · rename_i sent hs
      simp only [Option.some.injEq] at h
      subst h
      simp [hs, happ, hout, hsubs, sub]
  · cases h

end Exchange

end NostrServer
