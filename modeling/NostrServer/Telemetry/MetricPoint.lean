import NostrServer.Telemetry.DecimalText

namespace NostrServer.Telemetry

def isNumeric (c : UInt8) : Bool := isDigit c || c = 45 || c = 46

/-- `DecimalString`, which is only made of a `Decimal`. -/
structure DecimalString where
  text : Str
  numeric : ∀ c ∈ text, isNumeric c = true

theorem toStringHelper_numeric (m : Nat) (decimals : Int) :
    ∀ c ∈ toStringHelper m decimals, isNumeric c = true := by
  generalize hsize : m + (decimals + 1).toNat = size
  induction size using Nat.strong_induction_on generalizing m decimals with
  | _ size ih =>
    rw [toStringHelper_nat]
    split
    · rename_i hmore
      intro c hc
      have hless : m / 10 + (decimals - 1 + 1).toNat < size := by
        rcases hmore with hd | hm <;> omega
      have hdigit := digit_isDigit (Nat.mod_lt m (show 0 < 10 by decide))
      rcases List.mem_append.mp hc with hc | hc
      · exact ih _ hless _ _ rfl c hc
      · rcases List.mem_append.mp hc with hc | hc
        · split at hc
          · rw [List.mem_singleton.mp hc]
            rfl
          · cases hc
        · rw [List.mem_singleton.mp hc, isNumeric, hdigit]
          rfl
    · simp

theorem toText_numeric {x : Decimal decimals} (h : x.toText = .ok text) :
    ∀ c ∈ text, isNumeric c = true := by
  obtain ⟨⟨v, hlow, hhigh⟩⟩ := x
  have hzeros (k : Nat) : ∀ c ∈ List.replicate k (48 : UInt8), isNumeric c = true := by
    intro c hc
    rw [List.eq_of_mem_replicate hc]
    rfl
  have hhelper (n : Int) (hn : 0 ≤ n) : ∀ c ∈ toStringHelper n decimals, isNumeric c = true := by
    obtain ⟨m, rfl⟩ := Int.eq_ofNat_of_zero_le hn
    exact toStringHelper_numeric m decimals
  simp only [Decimal.toText, bind, Except.bind, pure, Except.pure] at h
  split at h
  · cases h
    intro c hc
    rcases List.mem_cons.mp hc with rfl | hc
    · rfl
    · split at hc
      · rcases List.mem_cons.mp hc with rfl | hc
        · rfl
        · exact hzeros _ c hc
      · cases hc
  · by_cases hneg : v < 0
    · simp only [hneg, ↓reduceIte] at h
      unfold checked at h
      split at h
      · cases h
      · rename_i n hn
        split at hn
        · cases hn
          cases h
          intro c hc
          rcases List.mem_append.mp hc with hc | hc
          · rcases List.mem_cons.mp hc with rfl | hc
            · rfl
            · exact hhelper _ (by simp only; omega) c hc
          · exact hzeros _ c hc
        · cases hn
    · simp only [hneg, ↓reduceIte] at h
      cases h
      intro c hc
      rcases List.mem_append.mp hc with hc | hc
      · exact hhelper v (by omega) c hc
      · exact hzeros _ c hc

def Decimal.toDecimalString (x : Decimal decimals) : Except NumberError DecimalString :=
  match h : x.toText with
  | .ok text => .ok ⟨text, toText_numeric h⟩
  | .error e => .error e

/-- Floating numbers, and what the standard library writes for them. -/
structure FloatFormat where
  Value : Type
  isNan : Value → Bool
  isFinite : Value → Bool
  isNegative : Value → Bool
  put : Value → Str
  toString : Value → Str
  put_plain : ∀ v, ∀ c ∈ put v, c ≠ 10 ∧ c ≠ 32 ∧ c ≠ 34 ∧ c ≠ 92

variable (fmt : FloatFormat)

/-- What is printed without quotes: the arithmetic types and `DecimalString`. -/
inductive Scalar where
  | bool (b : Bool)
  | integer (n : Int)
  | floating (v : fmt.Value)
  | decimal (s : DecimalString)

inductive AttributeValue where
  | scalar (v : Scalar fmt)
  | string (s : Str)

abbrev AttributeKeyValue := Str × AttributeValue fmt

abbrev AttributeList := List (AttributeKeyValue fmt)

inductive MetricType where
  | info | counter | gauge | histogram | gaugeHistogram | summary | stateSet | stateEnum | unknown
deriving DecidableEq

structure MetricDefinition where
  type : MetricType
  identifier : Str
  description : Str := []
  unit : Str := []
deriving DecidableEq

structure StateDef where
  key : Str
  values : List Str

inductive Boundaries where
  | doubles (bs : List fmt.Value)
  | ints (bs : List Int)
  | decimals (bs : List DecimalString)

/-- `MeasuredValue`; of each template the parts that every value of it has. -/
inductive MeasuredValue where
  | info
  | scalar (v : Scalar fmt)
  | state (stdef : StateDef) (value : UInt64)
  | summary (sum : Scalar fmt) (count : UInt64)
  | histogram (sum : Scalar fmt) (count : UInt64) (boundaries : Boundaries fmt)
    (counts : List UInt64)

/-- Nanoseconds since the epoch. -/
abbrev Timestamp := BaseType

/-- `Timestamp::min()`: the time of the collection is meant. -/
def Timestamp.min : Timestamp := ⟨-2 ^ 63, by decide⟩

structure MetricPoint where
  definition : MetricDefinition
  attributes : Option (AttributeList fmt) := none
  value : MeasuredValue fmt
  ts : Timestamp := Timestamp.min

end NostrServer.Telemetry
