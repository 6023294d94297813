import Mathlib.Data.UInt
import NostrServer.Lib.Lines
import NostrServer.Lib.Runs
import NostrServer.Lib.SortedTable
import NostrServer.Peer
import NostrServer.Telemetry.Exposition
import NostrServer.Telemetry.Families

namespace NostrServer.Telemetry

variable {fmt : FloatFormat}

/-- `defMetric` without a description. -/
def defMetric (type : MetricType) (identifier unit : String) : MetricDefinition where
  type := type
  identifier := str identifier
  unit := str unit

def databaseCollectionSize := defMetric .gauge "nostr_database_collection_size" "bytes"
def databaseLevelSize := defMetric .gauge "nostr_database_level_size" "bytes"
def databaseMemorySize := defMetric .gauge "nostr_database_memory_usage" "bytes"
def databaseEvents := defMetric .counter "nostr_database_events" ""
def databaseDuplicated := defMetric .counter "nostr_database_duplicated_posts" ""
def clientInfo := defMetric .info "nostr_client_info" ""
def clientCommandCounts := defMetric .counter "nostr_client_command_count" ""
def clientQueryCounts := defMetric .counter "nostr_client_query_count" ""
def clientErrorCounts := defMetric .counter "nostr_client_error_count" ""
def clientSubscripions := defMetric .gauge "nostr_client_active_subscriptions" ""
def clientMaxSubscriptions := defMetric .gauge "nostr_client_max_active_subscriptions" ""
def clientEventKindCounts := defMetric .counter "nostr_client_post_events" ""

def scavengedMetrics : List MetricDefinition :=
  [databaseCollectionSize, databaseLevelSize, databaseMemorySize, databaseEvents,
    databaseDuplicated, clientInfo, clientCommandCounts, clientQueryCounts, clientErrorCounts,
    clientSubscripions, clientMaxSubscriptions, clientEventKindCounts]

def counted (d : MetricDefinition) (attrs : Option (AttributeList fmt)) (n : Nat) :
    MetricPoint fmt :=
  { definition := d, attributes := attrs, value := .scalar (.integer n) }

/-- The level that is summed up, and its size so far. There is no level at first. -/
structure LevelScan where
  prevLevel : UInt64 := -1
  prevLevelSize : UInt64 := 0

namespace LevelScan

/-- `std::strtoul` of what follows in a line, which ends at its first zero. -/
def number (s : Str) : UInt64 := UInt64.ofNat (strtoull (s.takeWhile (fun c => c ≠ 0))).1

def flushOut (s : LevelScan) : List (UInt64 × UInt64) :=
  if s.prevLevel = -1 then [] else [(s.prevLevel, s.prevLevelSize)]

/-- One line of the listing: the heading of a level, or a table after a colon. -/
def scan (line : Str) (s : LevelScan) : List (UInt64 × UInt64) × LevelScan :=
  if (str "--- level ").isPrefixOf line then
    (s.flushOut, { prevLevel := number (line.drop 10), prevLevelSize := 0 })
  else
    match line.dropWhile (fun c => c ≠ 58) with
    | [] => ([], s)
    | _ :: rest => ([], { s with prevLevelSize := s.prevLevelSize + number rest })

/-- The loop over the lines. When the last one has no line break, every later `getline`
leaves it as it is, and the loop does not end. -/
def scanLines : List Str → LevelScan → Option (List (UInt64 × UInt64))
  | [], s => some s.flushOut
  | line :: lines, s =>
    if line.isEmpty then some s.flushOut
    else if lines.isEmpty then none
    else (scanLines lines (s.scan line).2).map ((s.scan line).1 ++ ·)

end LevelScan

/-- The sizes of the levels, of the text of `leveldb.sstables`. -/
def levelSizes (text : Str) : Option (List (UInt64 × UInt64)) :=
  LevelScan.scanLines (text.splitOn 10) {}

/-- A table in the listing, and the range of its keys as it is printed. -/
structure TableFile where
  number : Nat
  size : UInt64
  range : Str
  unbroken : 10 ∉ range

structure Level where
  number : UInt64
  files : List TableFile

def TableFile.line (f : TableFile) : Str :=
  32 :: (wholeDigits f.number ++ 58 :: (wholeDigits f.size.toNat ++ 91 :: f.range))

def Level.heading (l : Level) : Str :=
  str "--- level " ++ (wholeDigits l.number.toNat ++ str " ---")

def Level.lines (l : Level) : List Str := l.heading :: l.files.map TableFile.line

/-- The listing as LevelDB prints it: a heading for each level, and a line for each table of
it with the table's number, its size and its range. -/
def sstables (levels : List Level) : Str := ((levels.flatMap Level.lines).map (· ++ [10])).flatten

def Level.size (l : Level) : UInt64 := (l.files.map TableFile.size).sum

theorem digits_fold (ds : Str) : ds.foldl (fun v c => v * 10 + (c.toNat - 48)) 0 =
    Positional.value 10 (digitValues ds) := by
  induction ds using List.reverseRecOn with
  | nil => rfl
  | append_singleton ds c ih =>
    have hsnoc : digitValues (ds ++ [c]) = digitValues ds ++ [c.toNat - 48] := List.map_append
    rw [List.foldl_append, ih, hsnoc, Positional.value_snoc]
    rfl

theorem digit_plain {c : UInt8} (h : isDigit c = true) :
    (c == 32 || (9 ≤ c && c ≤ 13)) = false ∧ c ≠ 45 ∧ c ≠ 43 :=
  forall_byte (p := fun c => isDigit c = true →
    (c == 32 || (9 ≤ c && c ≤ 13)) = false ∧ c ≠ 45 ∧ c ≠ 43) (by decide +kernel) c h

/-- Digits are read up to what follows them. -/
theorem strtoull_digits {ds : Str} (hdigits : ∀ c ∈ ds, isDigit c = true) (hne : ds ≠ [])
    (hlt : Positional.value 10 (digitValues ds) < 2 ^ 64) (hc : isDigit c = false) (rest : Str) :
    (strtoull (ds ++ c :: rest)).1 = Positional.value 10 (digitValues ds) := by
  obtain ⟨d, ds, rfl⟩ := List.exists_cons_of_ne_nil hne
  obtain ⟨hblank, hminus, hplus⟩ := digit_plain (hdigits d List.mem_cons_self)
  have htake : (d :: (ds ++ c :: rest)).takeWhile (fun c => 48 ≤ c && c ≤ 57) = d :: ds := by
    change (d :: ds ++ c :: rest).takeWhile isDigit = d :: ds
    rw [List.takeWhile_append_of_pos hdigits, List.takeWhile_cons_of_neg (by simp [hc]),
      List.append_nil]
  unfold strtoull
  rw [List.cons_append, List.dropWhile_cons_of_neg (by simp [hblank])]
  dsimp only
  split
  · rename_i he
    exact absurd (List.cons.inj he).1 hminus
  · rename_i he
    exact absurd (List.cons.inj he).1 hplus
  · simp only [htake, digits_fold, List.isEmpty_cons, Bool.false_eq_true, ↓reduceIte]
    rw [if_neg (Nat.not_le.mpr hlt)]

/-- A number in a line is read up to what follows its digits. -/
theorem number_digits (n : UInt64) {c : UInt8} (hzero : c ≠ 0) (hc : isDigit c = false)
    (rest : Str) : LevelScan.number (wholeDigits n.toNat ++ c :: rest) = n := by
  obtain ⟨hdigits, hvalue⟩ := wholeDigits_spec n.toNat
  have hcut : (wholeDigits n.toNat ++ c :: rest).takeWhile (fun c => c ≠ 0) =
      wholeDigits n.toNat ++ c :: rest.takeWhile (fun c => c ≠ 0) := by
    rw [List.takeWhile_append_of_pos, List.takeWhile_cons_of_pos (by simpa using hzero)]
    intro d hd
    simp only [ne_eq, decide_not, Bool.not_eq_eq_eq_not, Bool.not_true, decide_eq_false_iff_not]
    rintro rfl
    cases hdigits 0 hd
  have hlt : Positional.value 10 (digitValues (wholeDigits n.toNat)) < 2 ^ 64 := by
    rw [hvalue]
    exact n.toNat_lt
  rw [LevelScan.number, hcut, strtoull_digits hdigits (wholeDigits_ne_nil _) hlt hc, hvalue]
  exact UInt64.ofNat_toNat

namespace LevelScan

theorem scan_heading (l : Level) (s : LevelScan) :
    s.scan l.heading = (s.flushOut, ⟨l.number, 0⟩) := by
  have hstarts : (str "--- level ").isPrefixOf l.heading = true :=
    List.isPrefixOf_iff_prefix.mpr (List.prefix_append _ _)
  have hrest : l.heading.drop 10 = wholeDigits l.number.toNat ++ 32 :: str "---" := rfl
  rw [scan, if_pos hstarts, hrest, number_digits _ (by decide) rfl]

theorem scan_file (f : TableFile) (s : LevelScan) :
    s.scan f.line = ([], { s with prevLevelSize := s.prevLevelSize + f.size }) := by
  have hother : (str "--- level ").isPrefixOf f.line = false := rfl
  have hcolon : f.line.dropWhile (fun c => c ≠ 58) =
      58 :: (wholeDigits f.size.toNat ++ 91 :: f.range) := by
    rw [TableFile.line, List.dropWhile_cons_of_pos (by decide), List.dropWhile_append_of_pos,
      List.dropWhile_cons_of_neg (by decide)]
    intro c hc
    have hdigit := (wholeDigits_spec f.number).1 c hc
    simp only [ne_eq, decide_not, Bool.not_eq_eq_eq_not, Bool.not_true, decide_eq_false_iff_not]
    rintro rfl
    cases hdigit
  have hsize : number (wholeDigits f.size.toNat ++ 91 :: f.range) = f.size :=
    number_digits f.size (by decide) rfl f.range
  rw [scan, hother, hcolon]
  simp only [Bool.false_eq_true, ↓reduceIte, hsize]

/-- A line that is not the last is read, and the loop goes on. -/
theorem scanLines_cons {line : Str} (hline : line ≠ []) {lines : List Str} (hmore : lines ≠ [])
    (s : LevelScan) : scanLines (line :: lines) s =
      (scanLines lines (s.scan line).2).map ((s.scan line).1 ++ ·) := by
  simp [scanLines, hline, hmore]

theorem scanLines_files (files : List TableFile) {lines : List Str} (hmore : lines ≠ [])
    (s : LevelScan) : scanLines (files.map TableFile.line ++ lines) s =
      scanLines lines { s with
        prevLevelSize := s.prevLevelSize + (files.map TableFile.size).sum } := by
  induction files generalizing s with
  | nil => simp
  | cons f files ih =>
    have hfile : f.line ≠ [] := List.cons_ne_nil _ _
    rw [List.map_cons, List.cons_append, scanLines_cons hfile (by simp [hmore]), scan_file, ih]
    simp [UInt64.add_assoc]

/-- Every level that is begun is put out when the next begins, or at the end. -/
theorem scanLines_levels (levels : List Level) (s : LevelScan) :
    scanLines (levels.flatMap Level.lines ++ [[]]) s = some (s.flushOut ++
      (levels.filter (fun l => l.number ≠ -1)).map (fun l => (l.number, l.size))) := by
  induction levels generalizing s with
  | nil => simp [scanLines]
  | cons l levels ih =>
    have hheading : l.heading ≠ [] := List.cons_ne_nil _ _
    rw [List.flatMap_cons, List.append_assoc, Level.lines, List.cons_append,
      scanLines_cons hheading (by simp), scan_heading, scanLines_files l.files (by simp), ih]
    by_cases hnone : l.number = -1
    · simp [flushOut, hnone]
    · simp [flushOut, hnone, Level.size]

theorem scanLines_ends {lines : List Str} (hne : lines ≠ []) (s : LevelScan) :
    scanLines lines s = none ↔ [] ∉ lines := by
  induction lines generalizing s with
  | nil => exact absurd rfl hne
  | cons line lines ih =>
    by_cases hline : line = []
    · simp [scanLines, hline]
    · by_cases hmore : lines = []
      · simp [scanLines, hline, hmore, Ne.symm hline]
      · rw [scanLines_cons hline hmore, Option.map_eq_none_iff, ih hmore]
        simp [Ne.symm hline]

end LevelScan

theorem digits_unbroken (n : Nat) : 10 ∉ wholeDigits n := by
  intro hmem
  cases (wholeDigits_spec n).1 10 hmem

theorem Level.unbroken (l : Level) : ∀ line ∈ l.lines, 10 ∉ line := by
  have hends : 10 ∉ str "--- level " ∧ 10 ∉ str " ---" := by decide
  refine List.forall_mem_cons.mpr ⟨?_, ?_⟩
  · simp [Level.heading, hends, digits_unbroken]
  · rw [List.forall_mem_map]
    intro f hf
    simp [TableFile.line, digits_unbroken, f.unbroken]

/-- The loop ends at an empty line, the last one without its line break included. -/
theorem levelSizes_ends (text : Str) : levelSizes text = none ↔ [] ∉ text.splitOn 10 :=
  LevelScan.scanLines_ends (List.splitOn_ne_nil _ _) {}

/-- Of the listing of LevelDB, the size of each level is what its tables add up to. -/
theorem levelSizes_sstables (levels : List Level) : levelSizes (sstables levels) =
    some ((levels.filter (fun l => l.number ≠ -1)).map (fun l => (l.number, l.size))) := by
  have hlines : ∀ line ∈ levels.flatMap Level.lines, 10 ∉ line := by
    intro line hline
    obtain ⟨l, -, hl⟩ := List.mem_flatMap.mp hline
    exact l.unbroken line hl
  rw [levelSizes, sstables, Lines.splitOn_flatten hlines, LevelScan.scanLines_levels]
  rfl

structure ClientSensor where
  connectionID : UInt32
  ident : Str
  userAgent : Str
  commandCounter : UInt32 := 0
  queryCounter : UInt32 := 0
  errorCounter : UInt32 := 0
  subscriptions : UInt32 := 0
  maxSubscriptions : UInt32 := 0
  eventCreatedKinds : List (UInt32 × UInt32) := []

/-- `report_kind`: the place of the kind is that of the least pair with it. -/
def ClientSensor.reportKind (s : ClientSensor) (kind : UInt32) : ClientSensor :=
  let less (p : UInt32 × UInt32) : Bool := p.1 < kind || p.1 == kind && p.2 < 0
  let before := s.eventCreatedKinds.takeWhile less
  { s with eventCreatedKinds :=
      match s.eventCreatedKinds.dropWhile less with
      | [] => before ++ [(kind, 1)]
      | p :: after =>
        if p.1 ≠ kind then before ++ (kind, 1) :: p :: after
        else before ++ (p.1, p.2 + 1) :: after }

/-- The attributes that the reader has made for a kind, or makes now. -/
def kindAttributes (basicattr : AttributeList fmt) (attrmap : List (UInt32 × AttributeList fmt))
    (kind : UInt32) : AttributeList fmt × List (UInt32 × AttributeList fmt) :=
  let before := attrmap.takeWhile (fun a => a.1 < kind)
  let newa := basicattr ++ [(str "kind", .scalar (.integer kind.toNat))]
  match attrmap.dropWhile (fun a => a.1 < kind) with
  | [] => (newa, before ++ [(kind, newa)])
  | a :: after =>
    if a.1 > kind then (newa, before ++ (kind, newa) :: a :: after) else (a.2, attrmap)

def readKinds (basicattr : AttributeList fmt) : List (UInt32 × UInt32) →
    List (UInt32 × AttributeList fmt) →
    List (MetricPoint fmt) × List (UInt32 × AttributeList fmt)
  | [], attrmap => ([], attrmap)
  | k :: kinds, attrmap =>
    let (attrs, attrmap) := kindAttributes basicattr attrmap k.1
    let (points, attrmap) := readKinds basicattr kinds attrmap
    (counted clientEventKindCounts (some attrs) k.2.toNat :: points, attrmap)

/-- A client's sensor, and the attributes that its reader keeps. -/
structure ClientReader (fmt : FloatFormat) where
  sensor : ClientSensor
  attrmap : List (UInt32 × AttributeList fmt) := []

namespace ClientReader

def basicattr (r : ClientReader fmt) : AttributeList fmt :=
  [(str "connID", .scalar (.integer r.sensor.connectionID.toNat))]

def extattr (r : ClientReader fmt) : AttributeList fmt :=
  r.basicattr ++ [(str "userAgent", .string r.sensor.userAgent),
    (str "ident", .string r.sensor.ident)]

def counters (r : ClientReader fmt) : List (MetricPoint fmt) :=
  let attrs := some r.basicattr
  [{ definition := clientInfo, attributes := some r.extattr, value := .info },
    counted clientCommandCounts attrs r.sensor.commandCounter.toNat,
    counted clientQueryCounts attrs r.sensor.queryCounter.toNat,
    counted clientSubscripions attrs r.sensor.subscriptions.toNat,
    counted clientErrorCounts attrs r.sensor.errorCounter.toNat,
    counted clientMaxSubscriptions attrs r.sensor.maxSubscriptions.toNat]

/-- The reader, with what it keeps for the next collection. -/
def read (r : ClientReader fmt) : List (MetricPoint fmt) × ClientReader fmt :=
  let (points, attrmap) := readKinds r.basicattr r.sensor.eventCreatedKinds r.attrmap
  (r.counters ++ points, { r with attrmap := attrmap })

end ClientReader

/-- What happens to a client's sensor: an event of a kind is created, other counters are
set, the collector reads it. -/
inductive ClientStep where
  | report (kind : UInt32)
  | count (commands queries errors subscriptions maxSubscriptions : UInt32)
  | collect
deriving DecidableEq

namespace ClientReader

def step (r : ClientReader fmt) : ClientStep → ClientReader fmt
  | .report kind => { r with sensor := r.sensor.reportKind kind }
  | .count commands queries errors subscriptions maxSubscriptions =>
    { r with
      sensor := { r.sensor with
        commandCounter := commands
        queryCounter := queries
        errorCounter := errors
        subscriptions := subscriptions
        maxSubscriptions := maxSubscriptions } }
  | .collect => r.read.2

def machine (fmt : FloatFormat) (connectionID : UInt32) (ident userAgent : Str) :
    Machine (ClientReader fmt) ClientStep where
  start := { sensor := { connectionID, ident, userAgent } }
  step := step

end ClientReader

open SortedTable

theorem reportKind_upsert (s : ClientSensor) (kind : UInt32) :
    (s.reportKind kind).eventCreatedKinds = upsert (fun p => p.1.toNat) kind.toNat
      (fun p => (p.1, p.2 + 1)) (kind, 1) s.eventCreatedKinds := by
  have hless : (fun p : UInt32 × UInt32 => decide (p.1 < kind) || p.1 == kind && decide (p.2 < 0)) =
      fun p => decide (p.1.toNat < kind.toNat) := by
    funext p
    simp [UInt32.lt_iff_toNat_lt]
  unfold ClientSensor.reportKind upsert
  simp only [hless]
  cases s.eventCreatedKinds.dropWhile (fun p => decide (p.1.toNat < kind.toNat)) with
  | nil => rfl
  | cons p after => simp [UInt32.toNat_inj]

/-- The place of a kind is its own or the next one's. -/
theorem kindAttributes_cases (basicattr : AttributeList fmt)
    (attrmap : List (UInt32 × AttributeList fmt)) (kind : UInt32) :
    (kindAttributes basicattr attrmap kind).2 = upsert (fun a => a.1.toNat) kind.toNat id
        (kind, basicattr ++ [(str "kind", .scalar (.integer kind.toNat))]) attrmap ∧
      (kind, (kindAttributes basicattr attrmap kind).1) ∈
        (kindAttributes basicattr attrmap kind).2 := by
  unfold kindAttributes upsert
  simp only [UInt32.lt_iff_toNat_lt, gt_iff_lt]
  have hsplit := List.takeWhile_append_dropWhile
    (p := fun a : UInt32 × AttributeList fmt => decide (a.1.toNat < kind.toNat)) (l := attrmap)
  cases hdrop : attrmap.dropWhile (fun a => decide (a.1.toNat < kind.toNat)) with
  | nil => simp
  | cons a after =>
    have hge : ¬ a.1.toNat < kind.toNat := by
      have hhead := List.head?_dropWhile_not (fun a => decide (a.1.toNat < kind.toNat)) attrmap
      simpa [hdrop] using hhead
    rw [hdrop] at hsplit
    by_cases hgt : kind.toNat < a.1.toNat
    · have hne : ¬ a.1.toNat = kind.toNat := by omega
      simp [hgt, hne]
    · have he : a.1.toNat = kind.toNat := by omega
      have hkind : kind = a.1 := UInt32.toNat_inj.mp he.symm
      simp only [he, lt_irrefl, ↓reduceIte, id_eq, hsplit, true_and]
      rw [← hsplit, hkind]
      simp

def ofKind (basicattr : AttributeList fmt) (kind : UInt32) : AttributeList fmt :=
  basicattr ++ [(str "kind", .scalar (.integer kind.toNat))]

structure Kept (basicattr : AttributeList fmt) (attrmap : List (UInt32 × AttributeList fmt)) :
    Prop where
  sorted : Sorted (fun a => a.1.toNat) attrmap
  made : ∀ a ∈ attrmap, a.2 = ofKind basicattr a.1

theorem kindAttributes_kept {basicattr : AttributeList fmt}
    {attrmap : List (UInt32 × AttributeList fmt)} (h : Kept basicattr attrmap) (kind : UInt32) :
    (kindAttributes basicattr attrmap kind).1 = ofKind basicattr kind ∧
      Kept basicattr (kindAttributes basicattr attrmap kind).2 := by
  obtain ⟨hupsert, hmem⟩ := kindAttributes_cases basicattr attrmap kind
  have hkept : Kept basicattr (kindAttributes basicattr attrmap kind).2 := by
    rw [hupsert]
    refine ⟨sorted_upsert h.sorted (fun _ => rfl) rfl, fun a ha => ?_⟩
    rcases (mem_upsert h.sorted).mp ha with ⟨ha, -⟩ | ⟨a, ha, -, rfl⟩ | ⟨-, rfl⟩
    · exact h.made a ha
    · exact h.made a ha
    · rfl
  exact ⟨hkept.made _ hmem, hkept⟩

/-- The reader emits every kind with its own attributes, kept or not. -/
theorem readKinds_kept {basicattr : AttributeList fmt} (kinds : List (UInt32 × UInt32))
    {attrmap : List (UInt32 × AttributeList fmt)} (h : Kept basicattr attrmap) :
    (readKinds basicattr kinds attrmap).1 = kinds.map (fun k =>
        counted clientEventKindCounts (some (ofKind basicattr k.1)) k.2.toNat) ∧
      Kept basicattr (readKinds basicattr kinds attrmap).2 := by
  induction kinds generalizing attrmap with
  | nil => exact ⟨rfl, h⟩
  | cons k kinds ih =>
    obtain ⟨hattrs, hkept⟩ := kindAttributes_kept h k.1
    obtain ⟨hpoints, hafter⟩ := ih hkept
    refine ⟨?_, hafter⟩
    simp only [readKinds, hattrs, hpoints, List.map_cons]

/-- The table of kinds has each one that was reported, with how often that was. -/
structure CountsKinds (steps : List ClientStep) (kinds : List (UInt32 × UInt32)) : Prop where
  sorted : Sorted (fun p => p.1.toNat) kinds
  counts : ∀ p, p ∈ kinds ↔ ClientStep.report p.1 ∈ steps ∧
    p.2 = UInt32.ofNat (steps.count (.report p.1))

theorem CountsKinds.report {s : ClientSensor} (h : CountsKinds steps s.eventCreatedKinds)
    (kind : UInt32) :
    CountsKinds (steps ++ [.report kind]) (s.reportKind kind).eventCreatedKinds := by
  rw [reportKind_upsert]
  refine ⟨sorted_upsert h.sorted (fun _ => rfl) rfl, fun p => ?_⟩
  obtain ⟨k, n⟩ := p
  rw [mem_upsert h.sorted]
  simp only [h.counts, List.mem_append, List.mem_singleton, List.count_append,
    ClientStep.report.injEq, UInt32.toNat_inj, ne_eq]
  by_cases hk : k = kind
  · subst hk
    have hcount : steps.count (.report k) + [ClientStep.report k].count (.report k) =
        steps.count (.report k) + 1 := by simp
    rw [hcount, UInt32.ofNat_add]
    by_cases hmem : ClientStep.report k ∈ steps
    · constructor
      · rintro (⟨-, hne⟩ | ⟨a, ⟨-, ha⟩, rfl, he⟩ | ⟨hnone, -⟩)
        · exact absurd rfl hne
        · exact ⟨Or.inr rfl, (congrArg Prod.snd he).trans (by rw [ha]; rfl)⟩
        · exact absurd rfl (hnone (k, .ofNat (steps.count (.report k))) ⟨hmem, rfl⟩)
      · rintro ⟨-, rfl⟩
        exact Or.inr (Or.inl ⟨(k, _), ⟨hmem, rfl⟩, rfl, rfl⟩)
    · have hzero : steps.count (.report k) = 0 := List.count_eq_zero.mpr hmem
      rw [hzero]
      constructor
      · rintro (⟨-, hne⟩ | ⟨a, ⟨ha, -⟩, rfl, -⟩ | ⟨-, he⟩)
        · exact absurd rfl hne
        · exact absurd ha hmem
        · exact ⟨Or.inr rfl, congrArg Prod.snd he⟩
      · rintro ⟨-, rfl⟩
        refine Or.inr (Or.inr ⟨?_, rfl⟩)
        rintro a ⟨ha, -⟩ rfl
        exact hmem ha
  · have hcount : [ClientStep.report kind].count (.report k) = 0 := by
      simp [Ne.symm hk]
    rw [hcount, Nat.add_zero]
    constructor
    · rintro (⟨hold, -⟩ | ⟨a, -, rfl, he⟩ | ⟨-, he⟩)
      · exact ⟨Or.inl hold.1, hold.2⟩
      · exact absurd (congrArg Prod.fst he) hk
      · exact absurd (congrArg Prod.fst he) hk
    · rintro ⟨hold, hn⟩
      exact Or.inl ⟨⟨hold.resolve_right hk, hn⟩, hk⟩

theorem CountsKinds.other (h : CountsKinds steps kinds) (x : ClientStep)
    (hx : ∀ kind, x ≠ .report kind) : CountsKinds (steps ++ [x]) kinds := by
  refine ⟨h.sorted, fun p => ?_⟩
  rw [h.counts]
  simp [Ne.symm (hx p.1), hx p.1]

namespace ClientReader
variable {connectionID : UInt32} {ident userAgent : Str}

/-- What is so of a reader after the steps. -/
structure After (connectionID : UInt32) (steps : List ClientStep) (r : ClientReader fmt) :
    Prop where
  named : r.sensor.connectionID = connectionID
  kinds : CountsKinds steps r.sensor.eventCreatedKinds
  kept : Kept r.basicattr r.attrmap

theorem After.step {r : ClientReader fmt} (h : r.After connectionID steps) (x : ClientStep) :
    (r.step x).After connectionID (steps ++ [x]) := by
  cases x with
  | report kind => exact ⟨h.named, h.kinds.report kind, h.kept⟩
  | count commands queries errors subscriptions maxSubscriptions =>
    exact ⟨h.named, h.kinds.other _ (by simp), h.kept⟩
  | collect =>
    have hkept := (readKinds_kept r.sensor.eventCreatedKinds h.kept).2
    exact ⟨h.named, h.kinds.other _ (by simp), hkept⟩

theorem run_after (steps : List ClientStep) :
    ((machine fmt connectionID ident userAgent).run steps).After connectionID steps := by
  induction steps using List.reverseRecOn with
  | nil =>
    exact ⟨rfl, ⟨.nil, by simp [Machine.run, machine]⟩, ⟨.nil, by simp [Machine.run, machine]⟩⟩
  | append_singleton pre x ih =>
    rw [Machine.run_snoc]
    exact ih.step x

/-- However the steps of a client fall between the collections: each collection emits, after
the counters, the kinds that were reported, in order and each once, with the client's
number and how often they were (in 32 bits). -/
theorem kinds_reported (steps : List ClientStep) :
    let r := (machine fmt connectionID ident userAgent).run steps
    ∃ kinds : List UInt32, kinds.Pairwise (· < ·) ∧ (∀ k, k ∈ kinds ↔ .report k ∈ steps) ∧
      r.read.1 = r.counters ++ kinds.map (fun k => counted clientEventKindCounts
        (some [(str "connID", .scalar (.integer connectionID.toNat)),
          (str "kind", .scalar (.integer k.toNat))])
        (steps.count (.report k) % 2 ^ 32)) := by
  intro r
  have h : r.After connectionID steps := run_after steps
  refine ⟨r.sensor.eventCreatedKinds.map Prod.fst, ?_, fun k => ?_, ?_⟩
  · rw [List.pairwise_map]
    exact h.kinds.sorted.imp UInt32.lt_iff_toNat_lt.mpr
  · rw [List.mem_map]
    constructor
    · rintro ⟨p, hp, rfl⟩
      exact ((h.kinds.counts p).mp hp).1
    · intro hk
      exact ⟨(k, .ofNat (steps.count (.report k))), (h.kinds.counts _).mpr ⟨hk, rfl⟩, rfl⟩
  · have hpoints := (readKinds_kept r.sensor.eventCreatedKinds h.kept).1
    have hread : r.read.1 = r.counters ++
        (readKinds r.basicattr r.sensor.eventCreatedKinds r.attrmap).1 := rfl
    rw [hread, hpoints, List.map_map]
    congr 1
    apply List.map_congr_left
    intro p hp
    have hcount := ((h.kinds.counts p).mp hp).2
    simp [ofKind, basicattr, h.named, hcount]

end ClientReader
end NostrServer.Telemetry
