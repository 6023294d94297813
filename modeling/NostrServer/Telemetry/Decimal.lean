import NostrServer.Binary
import Mathlib.Algebra.Ring.Int.Defs

namespace NostrServer.Telemetry

def Fits (n : Int) : Prop := -2 ^ 63 ≤ n ∧ n < 2 ^ 63

instance (n : Int) : Decidable (Fits n) := inferInstanceAs (Decidable (_ ∧ _))

abbrev BaseType := { n : Int // Fits n }

inductive NumberError where
  | overflow
  | pastTheEnd
  | invalidArgument (what : Str)
deriving DecidableEq

/-- The result of an operation of `BaseType`, when there is one. -/
def checked (n : Int) : Except NumberError BaseType :=
  if h : Fits n then .ok ⟨n, h⟩ else .error .overflow

def timesTen : Nat → BaseType → Except NumberError BaseType
  | 0, n => .ok n
  | i + 1, n => do timesTen i (← checked (n.val * 10))

def pow10 (posCount : Int) : Except NumberError BaseType :=
  timesTen posCount.toNat ⟨1, by decide⟩

/-- `divide_round`, without bounds. -/
def divideRound (x y : Int) : Int :=
  if x > 0 then (x + y.tdiv 2).tdiv y else (x - y.tdiv 2).tdiv y

def divideRoundChecked (x y : BaseType) : Except NumberError BaseType := do
  let half ← checked (y.val.tdiv 2)
  let sum ← if x.val > 0 then checked (x.val + half.val) else checked (x.val - half.val)
  checked (sum.val.tdiv y.val)

structure Decimal (decimals : Int) where
  raw : BaseType
deriving DecidableEq

def toStringHelper (n decimals : Int) : Str :=
  if decimals ≥ 0 ∨ n ≠ 0 then
    toStringHelper (n.tdiv 10) (decimals - 1) ++
      ((if decimals = 1 then [46] else []) ++ [UInt8.ofInt (48 + n.tmod 10)])
  else []
termination_by n.natAbs + (decimals + 1).toNat
decreasing_by
  have hless : (n.tdiv 10).natAbs = n.natAbs / 10 := Int.natAbs_tdiv n 10
  omega

def Decimal.toText (x : Decimal decimals) : Except NumberError Str :=
  if x.raw.val = 0 then
    .ok (48 :: if decimals > 0 then 46 :: List.replicate decimals.toNat 48 else [])
  else do
    let text ←
      if x.raw.val < 0 then do
        let n ← checked (-x.raw.val)
        pure (45 :: toStringHelper n.val decimals)
      else pure (toStringHelper x.raw.val decimals)
    return text ++ List.replicate (-decimals).toNat 48

def isDigit (c : UInt8) : Bool := 48 ≤ c && c ≤ 57

/-- The loop of the constructor over the text: the number, and how many decimals it has. -/
def readLoop (decimals : Int) : Str → BaseType → Bool → Int → Except NumberError (BaseType × Int)
  | [], n, _, decs => .ok (n, decs)
  | c :: rest, n, dot, decs =>
    if isDigit c then do
      let n ← checked (n.val * 10)
      let n ← checked (n.val + (c.toNat - 48))
      if dot then
        if decs + 1 > decimals then return (n, decs + 1)
        else readLoop decimals rest n dot (decs + 1)
      else readLoop decimals rest n dot decs
    else if c = 46 then
      if dot then .error (.invalidArgument (str "Invalid numeric format (multiple dots)"))
      else readLoop decimals rest n true 0
    else .error (.invalidArgument (str "Invalid numeric format (unexpected character)"))

/-- Division by ten, step by step, each with rounding. -/
def divideTen : Nat → BaseType → Except NumberError BaseType
  | 0, n => .ok n
  | i + 1, n => do divideTen i (← divideRoundChecked n ⟨10, by decide⟩)

/-- `Decimal(std::string_view)`. After a sign alone it looks past the end. -/
def Decimal.ofText (decimals : Int) (strn : Str) : Except NumberError (Decimal decimals) :=
  let empty := .error (.invalidArgument (str "Invalid numeric format (empty string)"))
  match strn with
  | [] => empty
  | c :: tail =>
    let neg := c = 45
    match if neg then tail else strn with
    | [] => .error .pastTheEnd
    | c :: tail =>
      let text := if c = 43 then tail else c :: tail
      if text.isEmpty then empty
      else do
        let (n, decs) ← readLoop decimals text ⟨0, by decide⟩ false 0
        let n ← timesTen (decimals - decs).toNat n
        let n ← divideTen (decs - decimals).toNat n
        let n ← if neg then checked (-n.val) else pure n
        return ⟨n⟩

/-- The rounding of `Decimal(const Decimal<d> &)`. -/
def lowerLoop : Nat → BaseType → Except NumberError BaseType
  | 0, n => .ok n
  | i + 1, n => do
    let sum ← checked (n.val + 5)
    lowerLoop i (← checked (sum.val.tdiv 10))

def Decimal.convert (decimals : Int) (other : Decimal d) :
    Except NumberError (Decimal decimals) := do
  let decDiff := decimals - d
  let n ←
    if decDiff > 0 then do
      let p ← pow10 decDiff
      checked (other.raw.val * p.val)
    else if decDiff < 0 then lowerLoop (-decDiff).toNat other.raw
    else pure other.raw
  return ⟨n⟩

theorem checked_ok (h : Fits n) : checked n = .ok ⟨n, h⟩ := dif_pos h

end NostrServer.Telemetry
