import NostrServer.Telemetry.Labels

namespace NostrServer.Telemetry

variable {fmt : FloatFormat}

inductive RenderError where
  | number (e : NumberError)
  | shift
  | outOfRange
deriving DecidableEq

/-- A line of the output. A value that cannot be computed is kept as its error. -/
inductive Line where
  | type (name : Str) (type : MetricType)
  | help (name description : Str)
  | unit (name unit : Str)
  | sample (name suffix labels : Str) (value time : Except RenderError Str)

def metricTypeToString : MetricType → Str
  | .info => str "info"
  | .counter => str "counter"
  | .gauge => str "gauge"
  | .histogram => str "histogram"
  | .gaugeHistogram => str "gaugehistogram"
  | .summary => str "summary"
  | .stateSet => str "stateset"
  | .stateEnum => str "stateset"
  | .unknown => str "unknown"

def renderMetricIdentifier : Str → Str
  | [] => str "error:__empty__"
  | f :: name =>
    (if !isAlpha f && f != 58 then [120] else []) ++
      (f :: name).map (fun c => if isAlnum c || c == 58 then c else 95)

def renderMetricName (d : MetricDefinition) : Str :=
  renderMetricIdentifier d.identifier ++
    if d.unit.isEmpty then [] else 95 :: renderMetricIdentifier d.unit

/-- `render_metric_comment`, which escapes as `render_escaped` does. -/
def renderMetricComment (name : Str) : Str := renderEscaped name

def Line.text : Line → Except RenderError Str
  | .type name t => .ok (str "# TYPE " ++ name ++ str " " ++ metricTypeToString t ++ [10])
  | .help name d => .ok (str "# HELP " ++ name ++ str " " ++ renderMetricComment d ++ [10])
  | .unit name u => .ok (str "# UNIT " ++ name ++ str " " ++ renderMetricComment u ++ [10])
  | .sample name suffix labels value time => do
    let v ← value
    let t ← time
    return name ++ suffix ++ labels ++ str " " ++ v ++ str " " ++ t ++ [10]

def renderDefinition (d : MetricDefinition) : List Line :=
  [.type (renderMetricName d) d.type] ++
    (if d.description.isEmpty then [] else [.help (renderMetricName d) d.description]) ++
    (if d.unit.isEmpty then [] else [.unit (renderMetricName d) d.unit])

/-- `to_nanosec` and `to_string`: seconds with nine decimals. -/
def timeText (ts : Timestamp) : Except RenderError Str :=
  match (⟨ts⟩ : Decimal 9).toText with
  | .ok text => .ok text
  | .error e => .error (.number e)

def renderMetricPoint (d : MetricDefinition) (suffix : Str) (attrs : Option (AttributeList fmt))
    (extra : AttributeList fmt) (value : Except RenderError Str) (ts : Timestamp) : Line :=
  .sample (renderMetricName d) suffix (renderAttributes attrs extra) value (timeText ts)

/-- `1 << idx`, a signed number of 32 bits. -/
def oneShifted (idx : UInt64) : Except RenderError (BitVec 32) :=
  if idx.toNat < 32 then .ok (1#32 <<< idx.toNat) else .error .shift

/-- The renderers of states; the shifted one is extended with its sign. -/
def stateSelected (type : MetricType) (idx val : UInt64) : Except RenderError Bool :=
  if type = .stateEnum then .ok (idx = val)
  else do
    let mask ← oneShifted idx
    return mask.signExtend 64 &&& val.toBitVec ≠ 0

def renderStates (ts : Timestamp) (d : MetricDefinition) (attrs : Option (AttributeList fmt))
    (stdef : StateDef) (val : UInt64) : List Line :=
  stdef.values.zipIdx.map (fun n =>
    let selected := stateSelected d.type (UInt64.ofNat n.2) val
    renderMetricPoint d [] attrs [(stdef.key, .string n.1)]
      (do return putInteger (if ← selected then 1 else 0)) ts)

/-- The samples of summaries, also of histograms. -/
def renderSummary (ts : Timestamp) (d : MetricDefinition) (attrs : Option (AttributeList fmt))
    (sum : Scalar fmt) (count : UInt64) : List Line :=
  let point (suffix : Str) (value : Str) := renderMetricPoint d suffix attrs [] (.ok value) ts
  match d.type with
  | .summary | .histogram =>
    [point (str "_sum") (renderScalar sum), point (str "_count") (putInteger count.toNat)]
  | .gaugeHistogram =>
    [point (str "_gsum") (renderScalar sum), point (str "_gcount") (putInteger count.toNat)]
  | _ => []

def Boundaries.texts : Boundaries fmt → List Str
  | .doubles bs => bs.map fmt.toString
  | .ints bs => bs.map putInteger
  | .decimals bs => bs.map DecimalString.text

/-- The samples of buckets, with what the ones before them add up to. -/
def renderBuckets (ts : Timestamp) (d : MetricDefinition) (attrs : Option (AttributeList fmt)) :
    List Str → List UInt64 → UInt64 → List Line
  | les, counts, sum =>
    let point (le : Str) (value : Except RenderError Str) :=
      renderMetricPoint d (str "_bucket") attrs [(str "le", .string le)] value ts
    let (value, sum) := match counts with
      | [] => (.error .outOfRange, sum)
      | c :: _ => (.ok (putInteger (sum + c).toNat), sum + c)
    match les with
    | [] => [point (str "+Inf") value]
    | le :: les => point le value :: renderBuckets ts d attrs les counts.tail sum

def renderValue (ts : Timestamp) (pt : MetricPoint fmt) : List Line :=
  let d := pt.definition
  let attrs := pt.attributes
  match pt.value with
  | .info => [renderMetricPoint d (str "_info") attrs [] (.ok (putInteger 1)) ts]
  | .state stdef val => renderStates ts d attrs stdef val
  | .summary sum count => renderSummary ts d attrs sum count
  | .histogram sum count boundaries counts =>
    renderSummary ts d attrs sum count ++
      if d.type = .histogram then renderBuckets ts d attrs boundaries.texts counts 0 else []
  | .scalar v =>
    match d.type with
    | .counter => [renderMetricPoint d (str "_total") attrs [] (.ok (renderScalar v)) ts]
    | _ => [renderMetricPoint d [] attrs [] (.ok (renderScalar v)) ts]

def renderMetrics (now created : Timestamp) (pt : MetricPoint fmt) (renderDescription : Bool) :
    List Line :=
  (if renderDescription then renderDefinition pt.definition else []) ++
    renderValue now pt ++
    match pt.definition.type with
    | .summary | .counter | .histogram =>
      [renderMetricPoint pt.definition (str "_created") pt.attributes [] (timeText created) now]
    | _ => []

abbrev MetricPointTimestamp (fmt : FloatFormat) := MetricPoint fmt × Timestamp

/-- The order of the sort: by the definition, then by the time. -/
def pointLe (a b : MetricPointTimestamp fmt) : Bool :=
  a.1.definition.identifier < b.1.definition.identifier ||
    (a.1.definition.identifier == b.1.definition.identifier && decide (a.1.ts.val ≤ b.1.ts.val))

def uptimeMetric : MetricDefinition where
  type := .counter
  identifier := str "uptime"
  description := str ("Measure the up-time of the component. When the uptime stops to raise over the " ++
    "time, the component is probably down")
  unit := str "seconds"

def uptimePoint (uptime : DecimalString) : MetricPoint fmt :=
  { definition := uptimeMetric, value := .scalar (.decimal uptime) }

/-- The loop of `collect_lk` over the points, with the identifier of the one before. -/
def renderPoints (now : Timestamp) : Str → List (MetricPointTimestamp fmt) → List Line
  | _, [] => []
  | prev, (pt, created) :: points =>
    let rts := if pt.ts = Timestamp.min then now else pt.ts
    renderMetrics rts created pt (prev ≠ pt.definition.identifier) ++
      renderPoints now pt.definition.identifier points

def renderOrder (start : Timestamp) (uptime : DecimalString)
    (points : List (MetricPointTimestamp fmt)) : List (MetricPointTimestamp fmt) :=
  points.mergeSort pointLe ++ [(uptimePoint uptime, start)]

/-- `collect_lk`, after the readers have emitted the points. -/
def collectLk (now start : Timestamp) (points : List (MetricPointTimestamp fmt)) :
    Except NumberError (List Line) := do
  let elapsed ← checked (now.val - start.val)
  let uptime ← (⟨elapsed⟩ : Decimal 9).toDecimalString
  return renderPoints now [] (renderOrder start uptime points)

theorem collectLk_ok {points : List (MetricPointTimestamp fmt)}
    (h : collectLk now start points = .ok lines) :
    ∃ uptime, lines = renderPoints now [] (renderOrder start uptime points) := by
  simp only [collectLk, bind, Except.bind, pure, Except.pure] at h
  split at h
  · cases h
  · split at h
    · cases h
    · cases h
      exact ⟨_, rfl⟩

/-- When a collector was made, and when it collects. -/
def madeAt : Timestamp := ⟨1700000000000000000, by decide⟩
def collectedAt : Timestamp := ⟨1700000060500000000, by decide⟩

end NostrServer.Telemetry
