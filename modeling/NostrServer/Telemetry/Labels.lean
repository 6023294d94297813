import NostrServer.Telemetry.MetricPoint
import NostrServer.Lib.Escaping

namespace NostrServer.Telemetry

variable {fmt : FloatFormat}

/-- `std::isalpha`, in the locale that programs start with. -/
def isAlpha (c : UInt8) : Bool := (65 ≤ c && c ≤ 90) || (97 ≤ c && c ≤ 122)

/-- `std::isalnum`, in the locale that programs start with. -/
def isAlnum (c : UInt8) : Bool := isAlpha c || isDigit c

def renderDouble (v : fmt.Value) : Str :=
  if fmt.isNan v then str "NaN"
  else if fmt.isFinite v then fmt.put v
  else if fmt.isNegative v then str "-Inf"
  else str "+Inf"

def renderEscaped : Str → Str
  | [] => []
  | c :: v =>
    (if c = 10 then str "\\n"
      else if c = 34 then str "\\\""
      else if c = 92 then str "\\\\"
      else [c]) ++
      renderEscaped v

def putInteger (n : Int) : Str :=
  (if n < 0 then [45] else []) ++ wholeDigits n.natAbs

def renderScalar : Scalar fmt → Str
  | .bool b => putInteger (if b then 1 else 0)
  | .integer n => putInteger n
  | .floating v => renderDouble v
  | .decimal s => s.text

def render : AttributeValue fmt → Str
  | .scalar v => renderScalar v
  | .string s => renderEscaped s

def renderAttributeKey : Str → Str
  | [] => str "__empty"
  | c :: name =>
    (if isDigit c then [110] else []) ++ (c :: name).map (fun c => if isAlnum c then c else 95)

def renderAttributeValue (val : AttributeValue fmt) : Str := 34 :: (render val ++ [34])

/-- The loops of `render_attributes`: what is written, and the next separator. -/
def attributesLoop : UInt8 → AttributeList fmt → Str × UInt8
  | sep, [] => ([], sep)
  | sep, (key, value) :: list =>
    let (text, next) := attributesLoop 44 list
    (sep :: (renderAttributeKey key ++ 61 :: renderAttributeValue value) ++ text, next)

def renderAttributes (list : Option (AttributeList fmt)) (extra : AttributeList fmt) : Str :=
  if (list.getD []).isEmpty && extra.isEmpty then []
  else
    let (text, sep) := attributesLoop 123 (list.getD [])
    let (more, _) := attributesLoop sep extra
    text ++ more ++ [125]

def escaping : Escaping UInt8 where
  mark := 92
  quote := 34
  letter c :=
    if c = 10 then some 110 else if c = 34 then some 34 else if c = 92 then some 92 else none
  back l :=
    if l = 110 then some 10 else if l = 34 then some 34 else if l = 92 then some 92 else none
  back_letter c l h := by
    split at h
    · cases h
      simp [*]
    · split at h
      · cases h
        simp [*]
      · split at h
        · cases h
          simp [*]
        · cases h
  mark_escaped := by decide
  quote_escaped := by decide
  distinct := by decide

theorem renderEscaped_eq (v : Str) : renderEscaped v = escaping.escape v := by
  have hn : str "\\n" = [92, 110] := rfl
  have hq : str "\\\"" = [92, 34] := rfl
  have hm : str "\\\\" = [92, 92] := rfl
  induction v with
  | nil => rfl
  | cons c v ih =>
    have hsplit : escaping.escape (c :: v) = escaping.escapeChar c ++ escaping.escape v := rfl
    rw [renderEscaped, hn, hq, hm, ih, hsplit]
    congr 1
    unfold Escaping.escapeChar
    by_cases h10 : c = 10
    · simp [h10, escaping]
    by_cases h34 : c = 34
    · simp [h34, escaping]
    by_cases h92 : c = 92
    · simp [h92, escaping]
    · simp [h10, h34, h92, escaping]

def Plain (s : Str) : Prop := ∀ c ∈ s, c ≠ 10 ∧ c ≠ 32 ∧ c ≠ 34 ∧ c ≠ 92

theorem escape_of_plain (h : Plain s) : escaping.escape s = s := by
  apply escaping.escape_plain
  intro c hc
  obtain ⟨h10, -, h34, h92⟩ := h c hc
  simp [escaping, h10, h34, h92]

theorem plain_of_numeric (h : ∀ c ∈ s, isNumeric c = true) : Plain s := by
  intro c hc
  have hnum := h c hc
  refine ⟨?_, ?_, ?_, ?_⟩ <;> rintro rfl <;> cases hnum

theorem putInteger_plain (n : Int) : Plain (putInteger n) := by
  apply plain_of_numeric
  intro c hc
  rcases List.mem_append.mp hc with hc | hc
  · split at hc
    · rw [List.mem_singleton.mp hc]
      rfl
    · cases hc
  · rw [isNumeric, (wholeDigits_spec n.natAbs).1 c hc]
    rfl

theorem renderScalar_plain (v : Scalar fmt) : Plain (renderScalar v) := by
  cases v with
  | bool b => exact putInteger_plain _
  | integer n => exact putInteger_plain n
  | decimal s => exact plain_of_numeric s.numeric
  | floating v =>
    have hword (s : Str)
        (h : s.all (fun c => c != 10 && c != 32 && c != 34 && c != 92) = true) : Plain s := by
      intro c hc
      simpa [and_assoc] using List.all_eq_true.mp h c hc
    simp only [renderScalar, renderDouble]
    split
    · exact hword _ (by decide)
    · split
      · exact fmt.put_plain v
      · split <;> exact hword _ (by decide)

def AttributeValue.text : AttributeValue fmt → Str
  | .scalar v => renderScalar v
  | .string s => s

theorem render_eq (val : AttributeValue fmt) : render val = escaping.escape val.text := by
  cases val with
  | scalar v => exact (escape_of_plain (renderScalar_plain v)).symm
  | string s => exact renderEscaped_eq s

def labelChar (c : UInt8) : Bool := isAlnum c || c = 95

/-- A legal label name: letters, digits and underscores, and no digit first. -/
def LabelName (key : Str) : Prop :=
  key ≠ [] ∧ (∀ c ∈ key, labelChar c = true) ∧ ∀ c, key.head? = some c → isDigit c = false

instance (key : Str) : Decidable (LabelName key) :=
  decidable_of_iff (key ≠ [] ∧ key.all labelChar = true ∧
      key.head?.all (fun c => isDigit c = false) = true) (by
    simp only [LabelName, List.all_eq_true, Option.all_eq_true, decide_eq_true_eq])

theorem renderAttributeKey_label (name : Str) : LabelName (renderAttributeKey name) := by
  have hchar (c : UInt8) : labelChar (if isAlnum c then c else 95) = true := by
    by_cases h : isAlnum c = true <;> simp [labelChar, h]
  cases name with
  | nil => decide
  | cons c name =>
    have hmap : ∀ d ∈ (c :: name).map (fun c => if isAlnum c then c else 95),
        labelChar d = true := by
      intro d hd
      obtain ⟨e, -, rfl⟩ := List.mem_map.mp hd
      exact hchar e
    by_cases hdigit : isDigit c = true
    · refine ⟨by simp [renderAttributeKey, hdigit], ?_, ?_⟩
      · intro d hd
        simp only [renderAttributeKey, hdigit, ↓reduceIte, List.singleton_append] at hd
        rcases List.mem_cons.mp hd with rfl | hd
        · rfl
        · exact hmap d hd
      · intro d hd
        simp only [renderAttributeKey, hdigit, ↓reduceIte, List.singleton_append, List.head?_cons,
          Option.some.injEq] at hd
        rw [← hd]
        rfl
    · refine ⟨by simp [renderAttributeKey], ?_, ?_⟩
      · intro d hd
        simp only [renderAttributeKey, hdigit, Bool.false_eq_true, ↓reduceIte,
          List.nil_append] at hd
        exact hmap d hd
      · intro d hd
        simp only [renderAttributeKey, hdigit, Bool.false_eq_true, ↓reduceIte, List.nil_append,
          List.map_cons, List.head?_cons, Option.some.injEq] at hd
        rw [← hd]
        split
        · simpa using hdigit
        · rfl

/-- Reads labels up to the brace that closes them: the names and values, and what comes
after. -/
def readItems : Nat → Str → Option (List (Str × Str) × Str)
  | 0, _ => none
  | fuel + 1, text =>
    let key := text.takeWhile labelChar
    match text.dropWhile labelChar with
    | 61 :: 34 :: rest =>
      if LabelName key then
        match escaping.read rest with
        | some (value, 44 :: rest) =>
          (readItems fuel rest).map (fun r => ((key, value) :: r.1, r.2))
        | some (value, 125 :: rest) => some ([(key, value)], rest)
        | _ => none
      else none
    | _ => none

def readLabels : Str → Option (List (Str × Str) × Str)
  | 123 :: rest => readItems rest.length rest
  | _ => none

def renderItem (kv : AttributeKeyValue fmt) : Str :=
  renderAttributeKey kv.1 ++ 61 :: renderAttributeValue kv.2

theorem attributesLoop_cons (sep : UInt8) (kv : AttributeKeyValue fmt) (list : AttributeList fmt) :
    attributesLoop sep (kv :: list) =
      (sep :: (renderItem kv ++ list.flatMap (fun kv => 44 :: renderItem kv)), 44) := by
  induction list generalizing sep kv with
  | nil => simp [attributesLoop, renderItem]
  | cons kv' list ih =>
    rw [attributesLoop, ih]
    simp [renderItem]

theorem intercalate_items (kv : AttributeKeyValue fmt) (list : AttributeList fmt) :
    List.intercalate [44] ((kv :: list).map renderItem) =
      renderItem kv ++ list.flatMap (fun kv => 44 :: renderItem kv) := by
  induction list generalizing kv with
  | nil => simp [List.intercalate]
  | cons kv' list ih =>
    rw [List.flatMap_cons, List.cons_append, ← ih kv']
    simp [List.intercalate]

/-- The labels in writing: in braces, with commas between them. -/
theorem renderAttributes_eq (list : Option (AttributeList fmt)) (extra : AttributeList fmt)
    (h : list.getD [] ++ extra ≠ []) : renderAttributes list extra =
      123 :: (List.intercalate [44] ((list.getD [] ++ extra).map renderItem) ++ [125]) := by
  unfold renderAttributes
  cases hlist : list.getD [] with
  | cons kv attrs =>
    rw [attributesLoop_cons, List.cons_append, intercalate_items]
    cases extra with
    | nil => simp [attributesLoop]
    | cons kv' extra => simp [attributesLoop_cons]
  | nil =>
    cases extra with
    | nil => simp [hlist] at h
    | cons kv' extra =>
      have hnone : attributesLoop 123 ([] : AttributeList fmt) = ([], 123) := rfl
      rw [hnone, List.nil_append, intercalate_items]
      simp [attributesLoop_cons]

/-- A label is read to where its quotes end, so that nothing in its value ends it. -/
theorem readItems_item (fuel : Nat) (kv : AttributeKeyValue fmt) (rest : Str) :
    readItems (fuel + 1) (renderItem kv ++ 44 :: rest) =
      (readItems fuel rest).map (fun r => ((renderAttributeKey kv.1, kv.2.text) :: r.1, r.2)) ∧
    readItems (fuel + 1) (renderItem kv ++ 125 :: rest) =
      some ([(renderAttributeKey kv.1, kv.2.text)], rest) := by
  have hkey := renderAttributeKey_label kv.1
  have hequals : labelChar 61 = false := rfl
  have hsplit (tail : Str) : renderItem kv ++ tail =
      renderAttributeKey kv.1 ++ 61 :: 34 :: (escaping.escape kv.2.text ++ 34 :: tail) := by
    simp [renderItem, renderAttributeValue, render_eq]
  have htake (tail : Str) :
      (renderItem kv ++ tail).takeWhile labelChar = renderAttributeKey kv.1 := by
    rw [hsplit, List.takeWhile_append_of_pos hkey.2.1]
    simp [hequals]
  have hdrop (tail : Str) : (renderItem kv ++ tail).dropWhile labelChar =
      61 :: 34 :: (escaping.escape kv.2.text ++ 34 :: tail) := by
    rw [hsplit, List.dropWhile_append_of_pos hkey.2.1]
    simp [hequals]
  have hread (tail : Str) : escaping.read (escaping.escape kv.2.text ++ 34 :: tail) =
      some (kv.2.text, tail) := escaping.read_escape kv.2.text tail
  constructor
  · simp only [readItems, htake, hdrop, hkey, ↓reduceIte, hread]
  · simp only [readItems, htake, hdrop, hkey, ↓reduceIte, hread]

theorem readItems_rendered (kv : AttributeKeyValue fmt) (list : AttributeList fmt) (fuel : Nat)
    (hfuel : list.length < fuel) (tail : Str) :
    readItems fuel (renderItem kv ++
      (list.flatMap (fun kv => 44 :: renderItem kv) ++ 125 :: tail)) =
      some ((kv :: list).map (fun kv => (renderAttributeKey kv.1, kv.2.text)), tail) := by
  induction list generalizing kv fuel with
  | nil =>
    obtain ⟨n, rfl⟩ := Nat.exists_eq_add_of_lt hfuel
    exact (readItems_item _ kv tail).2
  | cons kv' list ih =>
    obtain ⟨n, rfl⟩ := Nat.exists_eq_add_of_lt hfuel
    rw [List.flatMap_cons, List.cons_append, List.cons_append, (readItems_item _ kv _).1,
      List.append_assoc, ih kv' _ (by simp only [List.length_cons]; omega)]
    rfl

theorem length_le_items (list : AttributeList fmt) :
    list.length ≤ (list.flatMap (fun kv => 44 :: renderItem kv)).length := by
  induction list with
  | nil => simp
  | cons kv list ih =>
    rw [List.flatMap_cons, List.length_append, List.length_cons, List.length_cons]
    omega

theorem readLabels_rendered (list : Option (AttributeList fmt)) (extra : AttributeList fmt)
    (h : list.getD [] ++ extra ≠ []) (tail : Str) :
    readLabels (renderAttributes list extra ++ tail) =
      some ((list.getD [] ++ extra).map
        (fun kv => (renderAttributeKey kv.1, kv.2.text)), tail) := by
  obtain ⟨kv, rest, hcons⟩ := List.exists_cons_of_ne_nil h
  have hlength : rest.length < (List.intercalate [44] ((kv :: rest).map renderItem) ++
      ([125] ++ tail)).length := by
    rw [intercalate_items]
    have hcount := length_le_items rest
    simp only [List.length_append, List.length_cons]
    omega
  have hread := readItems_rendered kv rest _ hlength tail
  rw [renderAttributes_eq list extra h, hcons]
  simp only [List.cons_append, List.append_assoc, readLabels]
  simp only [intercalate_items, List.append_assoc, List.cons_append, List.nil_append] at hread ⊢
  exact hread

/-- The labels that are written are read back: each under a legal name with the value it
had, whatever is in it, and nothing of what comes after. -/
theorem labels_read_back (list : Option (AttributeList fmt)) (extra : AttributeList fmt)
    (h : list.getD [] ++ extra ≠ []) (tail : Str) :
    renderAttributes list extra =
      123 :: (List.intercalate [44] ((list.getD [] ++ extra).map renderItem) ++ [125]) ∧
    readLabels (renderAttributes list extra ++ tail) =
      some ((list.getD [] ++ extra).map (fun kv => (renderAttributeKey kv.1, kv.2.text)), tail) ∧
    ∀ kv ∈ list.getD [] ++ extra, LabelName (renderAttributeKey kv.1) :=
  ⟨renderAttributes_eq list extra h, readLabels_rendered list extra h tail,
    fun kv _ => renderAttributeKey_label kv.1⟩

def noFloats : FloatFormat where
  Value := Empty
  isNan := Empty.elim
  isFinite := Empty.elim
  isNegative := Empty.elim
  put := Empty.elim
  toString := Empty.elim
  put_plain v := v.elim

def forgedAgent : AttributeList noFloats := [(str "user agent", .string (str "a\",b=\"\\\n\x7d"))]

theorem forgedAgent_read_back : readLabels (renderAttributes (some forgedAgent) [] ++ str " 1") =
    some ([(str "user_agent", str "a\",b=\"\\\n\x7d")], str " 1") :=
  (labels_read_back (some forgedAgent) [] (List.cons_ne_nil _ _) (str " 1")).2.1

end NostrServer.Telemetry
