import NostrServer.Indexes

namespace NostrServer
open Docdb

structure Karma where
  followers : UInt32 := 0
  mutes : UInt32 := 0
  mentions : UInt32 := 0
  directmsgs : UInt32 := 0
  isLocal : Bool := false
deriving DecidableEq

/-- `get_score`: an unsigned sum, returned as `int`. -/
def Karma.getScore (k : Karma) : Int32 :=
  ((if k.isLocal then 2 else 0) + min 2 k.mentions + min 2 k.directmsgs +
    k.followers - k.mutes).toInt32

/-- `unsigned int (Karma::*val)`. -/
inductive Counter where
  | followers | mutes | mentions | directmsgs
deriving DecidableEq

def Karma.get (k : Karma) : Counter → UInt32
  | .followers => k.followers
  | .mutes => k.mutes
  | .mentions => k.mentions
  | .directmsgs => k.directmsgs

def Karma.set (k : Karma) (v : UInt32) : Counter → Karma
  | .followers => { k with followers := v }
  | .mutes => { k with mutes := v }
  | .mentions => { k with mentions := v }
  | .directmsgs => { k with directmsgs := v }

theorem Karma.get_set (k : Karma) (v : UInt32) (c d : Counter) :
    (k.set v c).get d = if d = c then v else k.get d := by
  cases c <;> cases d <;> rfl

@[simp] theorem Karma.isLocal_set (k : Karma) (v : UInt32) (c : Counter) :
    (k.set v c).isLocal = k.isLocal := by
  cases c <;> rfl

/-- The values of the aggregator. -/
abbrev KarmaTable := List (Pubkey × Karma)

def KarmaTable.put (t : KarmaTable) (pk : Pubkey) (k : Karma) : KarmaTable :=
  (pk, k) :: t.filter (fun e => e.1 ≠ pk)

theorem KarmaTable.lookup_put (t : KarmaTable) (pk pk' : Pubkey) (k : Karma) :
    (t.put pk k).lookup pk' = if pk' = pk then some k else t.lookup pk' := by
  by_cases h : pk' = pk
  · simp [KarmaTable.put, h]
  · have hb : (pk' == pk) = false := by simpa using h
    simp only [KarmaTable.put, List.lookup_cons, hb, h, ↓reduceIte]
    induction t with
    | nil => rfl
    | cons e t ih =>
      obtain ⟨q, v⟩ := e
      by_cases he : q = pk
      · subst q
        simpa [List.lookup_cons, hb] using ih
      · simp only [ne_eq, decide_not] at ih
        simp [he, List.lookup_cons, ih]

def KarmaTable.isLocal (t : KarmaTable) (pk : Pubkey) : Bool := (t.lookup pk).any (·.isLocal)

def KarmaTable.value (t : KarmaTable) (pk : Pubkey) (c : Counter) : UInt32 :=
  match t.lookup pk with
  | some k => k.get c
  | none => 0

/-- One `p` tag of `update_counter`. -/
def countTag (erase : Bool) (c : Counter) (t : KarmaTable) (pk : Pubkey) : KarmaTable :=
  match t.lookup pk with
  | some k => t.put pk (k.set (if erase then k.get c - 1 else k.get c + 1) c)
  | none => if erase then t else t.put pk (({} : Karma).set 1 c)

/-- The keys `update_counter` reads from the `p` tags. -/
def mentioned (mem : Nat → Pubkey) (ev : Event) : List Pubkey :=
  (ev.forEachTag (str "p")).zipIdx.map (fun t => fromHex (mem t.2) t.1.content)

def updateCounter (erase : Bool) (mem : Nat → Pubkey) (ev : Event) (c : Counter)
    (t : KarmaTable) : KarmaTable :=
  (mentioned mem ev).foldl (countTag erase c) t

def counterOf (ev : Event) : Option Counter :=
  if ev.kind = Kind.shortTextNote then some .mentions
  else if ev.kind = Kind.contacts then some .followers
  else if ev.kind = Kind.encryptedDirectMessages then some .directmsgs
  else if ev.kind = Kind.muteList then some .mutes
  else if ev.kind = Kind.giftWrapEvent then (if ev.trusted then some .directmsgs else none)
  else none

def makeLocal (t : KarmaTable) (pk : Pubkey) : KarmaTable :=
  match t.lookup pk with
  | none => t.put pk { isLocal := true }
  | some k => if k.isLocal then t else t.put pk { k with isLocal := true }

def switchKind (erase : Bool) (mem : Nat → Pubkey) (ev : Event) (t : KarmaTable) : KarmaTable :=
  match counterOf ev with
  | some c => updateCounter erase mem ev c t
  | none => t

/-- `WhiteListIndexFn`, in insert or in erase mode. -/
def whiteListIndexFn (erase : Bool) (mem : Nat → Pubkey) (d : EventOrAttachment)
    (t : KarmaTable) : KarmaTable :=
  match d with
  | .attachment _ => t
  | .event ev =>
    if ev.refLevel ≠ 0 then t
    else if ev.kind < Kind.encryptedDirectMessages then
      switchKind erase mem ev (if erase then t else makeLocal t ev.author)
    else if t.isLocal ev.author then switchKind erase mem ev t
    else t

/-- What the arrays made while a document was indexed held. -/
structure IndexMemory where
  karmaErase : Nat → Pubkey
  karmaInsert : Nat → Pubkey
  attachmentErase : ID
  attachmentInsert : ID

/-- The aggregator's share of an update: erase mode for the old document, then
insert mode for the new one. -/
def karmaUpdate (mem : IndexMemory) (up : Update EventOrAttachment) (t : KarmaTable) : KarmaTable :=
  let t := match up.oldDoc with
    | some d => whiteListIndexFn true mem.karmaErase d t
    | none => t
  match up.newDoc with
  | some d => whiteListIndexFn false mem.karmaInsert d t
  | none => t

end NostrServer
