import NostrServer.Binary

namespace NostrServer

/-- `docdb::Structured`, the value of a JSON text. A number that is not an
integer keeps its spelling. -/
inductive Structured where
  | undefined
  | null
  | bool (b : Bool)
  | int (i : Int)
  | real (token : Str)
  | string (s : Str)
  | array (items : List Structured)
  | object (items : List (Str × Structured))

/-- `operator[]` with a name; a missing key gives `undefined`. -/
def Structured.field (s : Structured) (name : Str) : Structured :=
  match s with
  | .object items => (items.lookup name).getD .undefined
  | _ => .undefined

/-- `array()`: the items, none for any other value. -/
def Structured.items : Structured → List Structured
  | .array items => items
  | _ => []

def Structured.keypairs : Structured → List (Str × Structured)
  | .object items => items
  | _ => []

/-- `operator[]` with a position. -/
def Structured.item (s : Structured) (i : Nat) : Structured := s.items.getD i .undefined

def Structured.isArray : Structured → Bool
  | .array _ => true
  | _ => false

def Structured.defined : Structured → Bool
  | .undefined => false
  | _ => true

/-- The code outside the repository that decides what the server does: OpenSSL,
libsecp256k1, libunac, the C++ library and its locale, and the text half of docdb. -/
structure External where
  /-- `SHA256`. -/
  sha256 : Str → Binary 32
  /-- Parsing of the x-only key, then `secp256k1_schnorrsig_verify`. -/
  schnorrVerify : Binary 32 → Binary 32 → Binary 64 → Bool
  /-- `std::hash<std::string_view>`. -/
  hasher : Str → UInt64
  /-- `to_json(flagUTF8)`. -/
  toJson : Structured → Str
  /-- `from_json`; `none` when it throws. -/
  fromJson : Str → Option Structured
  containsTime : Structured → Bool
  containsUnsigned : Structured → Bool
  /-- `as<T>()`; `none` when it throws. -/
  asTime : Structured → Option Int64
  asUnsigned : Structured → Option UInt32
  asString : Structured → Option Str
  asStringView : Structured → Option Str
  /-- The characters `utf8Towchar` reads from a text, those it cannot read left out. -/
  wideChars : Str → List UInt32
  wcharToUtf8 : UInt32 → Str
  isalnum : UInt32 → Bool
  tolower : UInt32 → UInt32
  unacCharUtf16 : UInt16 → List UInt16
  /-- Converting a text to a text gives it back. -/
  asString_string : ∀ s, asString (.string s) = some s

end NostrServer
