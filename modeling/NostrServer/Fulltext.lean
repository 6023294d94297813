import NostrServer.Event

namespace NostrServer

abbrev WordToken := Str × UInt8

def flushWord (word : List UInt32) : List (List UInt32) := if word.isEmpty then [] else [word]

/-- The words the template `tokenize_text` calls back with. -/
def splitWords (ext : External) (word : List UInt32) : List UInt32 → List (List UInt32)
  | [] => flushWord word
  | c :: text =>
    if ext.isalnum c then splitWords ext (word ++ [ext.tolower c]) text
    else flushWord word ++ splitWords ext [] text

/-- One character of `unac_word`; only the low 16 bits are looked up. -/
def unacChar (ext : External) (d : UInt32) : List UInt32 :=
  if d > 0x10000 then [d]
  else
    match ext.unacCharUtf16 d.toUInt16 with
    | [] => [d]
    | p => p.map (·.toUInt32)

/-- `unac_word`: the word, and its variant without accents when that differs. -/
def unacWord (ext : External) (word : List UInt32)
    (relevance : UInt32) : List (List UInt32 × UInt32) :=
  let unaced := word.flatMap (unacChar ext)
  (word, relevance) :: if unaced ≠ word then [(unaced, relevance * 2)] else []

/-- A word in UTF-8, cut to 15 bytes. -/
def wordToken (ext : External) (w : List UInt32 × UInt32) : WordToken :=
  ((w.1.flatMap ext.wcharToUtf8).take 15, w.2.toUInt8)

def tokenLe (a b : WordToken) : Bool := a.1 < b.1 || (a.1 == b.1 && decide (a.2 ≤ b.2))

/-- `remove_if` over sorted tokens: of each word the first stays. -/
def removeRepeated (last : WordToken) : List WordToken → List WordToken
  | [] => []
  | x :: rest => if x.1 ≠ last.1 then x :: removeRepeated x rest else removeRepeated last rest

def tokenizeText (ext : External) (text : Str) : List WordToken :=
  let words := (splitWords ext [] (ext.wideChars text)).flatMap (unacWord ext · 1)
  match (words.map (wordToken ext)).mergeSort tokenLe with
  | [] => []
  | t :: rest => t :: removeRepeated t rest

theorem tokenizeText_blank {ext : External} (h : ext.wideChars text = []) :
    tokenizeText ext text = [] := by
  simp [tokenizeText, h, splitWords, flushWord]

theorem tokenizeText_single {ext : External}
    (h : ((splitWords ext [] (ext.wideChars text)).flatMap
      (unacWord ext · 1)).map (wordToken ext) = [t]) :
    tokenizeText ext text = [t] := by
  simp [tokenizeText, h, removeRepeated]

end NostrServer
