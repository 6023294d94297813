import NostrServer.Telemetry.Reports
import NostrServer.Telemetry.Scavengers

namespace NostrServer.Telemetry

variable {fmt : FloatFormat}

variable (fmt) in
/-- What the reader of a sensor finds: the texts and sizes of the database, the revision of
the storage, the duplicates, or a client. -/
inductive Reading where
  | database (sstables : Str) (tables : List (Str × UInt64)) (memoryUsage : Str)
  | storage (rev : UInt64)
  | shared (duplicatedPost : UInt32)
  | client (reader : ClientReader fmt)

/-- What the reader emits; `none` when it does not end. -/
def Reading.points : Reading fmt → Option (List (MetricPoint fmt))
  | .database sstables tables memoryUsage =>
    (levelSizes sstables).map (fun levels =>
      levels.map (fun l => counted databaseLevelSize
        (some [(str "level", .scalar (.integer l.1.toNat))]) l.2.toNat) ++
      tables.map (fun t => counted databaseCollectionSize
        (some [(str "collection", .string t.1)]) t.2.toNat) ++
      [counted databaseMemorySize none (LevelScan.number memoryUsage).toNat])
  | .storage rev => some [counted databaseEvents none rev.toNat]
  | .shared duplicatedPost => some [counted databaseDuplicated none duplicatedPost.toNat]
  | .client reader => some reader.read.1

/-- Of a listing of LevelDB, the reader of the database emits for each level what its tables
add up to. It reads to the end of every text with an empty line, the last one without its
line break included, and of no other. -/
theorem database_read (levels : List Level) (tables : List (Str × UInt64)) (memoryUsage : Str) :
    (Reading.database (sstables levels) tables memoryUsage : Reading fmt).points =
      some ((levels.filter (fun l => l.number ≠ -1)).map (fun l => counted databaseLevelSize
          (some [(str "level", .scalar (.integer l.number.toNat))]) l.size.toNat) ++
        tables.map (fun t => counted databaseCollectionSize
          (some [(str "collection", .string t.1)]) t.2.toNat) ++
        [counted databaseMemorySize none (LevelScan.number memoryUsage).toNat]) ∧
    ∀ text, (Reading.database text tables memoryUsage : Reading fmt).points = none ↔
      [] ∉ text.splitOn 10 := by
  constructor
  · rw [Reading.points, levelSizes_sstables, Option.map_some, List.map_map]
    rfl
  · intro text
    rw [Reading.points, Option.map_eq_none_iff]
    exact levelSizes_ends text

def scavenge : List (Reading fmt × Timestamp) → Option (List (MetricPointTimestamp fmt))
  | [] => some []
  | (reading, created) :: readings => do
    let points ← reading.points
    let more ← scavenge readings
    return points.map (fun p => (p, created)) ++ more

inductive MetricsReply where
  | unauthorized
  | text (body : Str)

/-- The handler of `/metrics`; without the configured text in its header a request is not
answered. -/
def metricsReply (auth authorization collected : Str) : MetricsReply :=
  if auth ≠ [] ∧ ¬ auth <:+: authorization then .unauthorized
  else .text (collected ++ str "# EOF\n")

/-- A point of one of the metrics, a number or an information of the time of the collection. -/
structure Scavenged (pt : MetricPoint fmt) : Prop where
  listed : pt.definition ∈ scavengedMetrics
  plain : pt.value = .info ∨ ∃ v, pt.value = .scalar v
  ts : pt.ts = Timestamp.min

theorem counted_scavenged {d : MetricDefinition} (hd : d ∈ scavengedMetrics)
    (attrs : Option (AttributeList fmt)) (n : Nat) : Scavenged (counted d attrs n) :=
  ⟨hd, Or.inr ⟨_, rfl⟩, rfl⟩

theorem readKinds_scavenged (basicattr : AttributeList fmt) (kinds : List (UInt32 × UInt32))
    (attrmap : List (UInt32 × AttributeList fmt)) :
    ∀ p ∈ (readKinds basicattr kinds attrmap).1, Scavenged p := by
  induction kinds generalizing attrmap with
  | nil =>
    intro p hp
    cases hp
  | cons k kinds ih =>
    simp only [readKinds, List.forall_mem_cons]
    exact ⟨counted_scavenged (by simp [scavengedMetrics]) _ _, ih _⟩

theorem client_scavenged (r : ClientReader fmt) : ∀ p ∈ r.read.1, Scavenged p := by
  have hcounters : ∀ p ∈ r.counters, Scavenged p := by
    simp only [ClientReader.counters, List.forall_mem_cons, List.not_mem_nil, false_implies,
      implies_true, and_true]
    refine ⟨⟨by simp [scavengedMetrics], Or.inl rfl, rfl⟩, ?_, ?_, ?_, ?_, ?_⟩ <;>
      exact counted_scavenged (by simp [scavengedMetrics]) _ _
  intro p hp
  rcases List.mem_append.mp hp with hp | hp
  · exact hcounters p hp
  · exact readKinds_scavenged _ _ _ p hp

theorem reading_scavenged {reading : Reading fmt} {points : List (MetricPoint fmt)}
    (h : reading.points = some points) : ∀ p ∈ points, Scavenged p := by
  cases reading with
  | database sstables tables memoryUsage =>
    obtain ⟨levels, -, rfl⟩ := Option.map_eq_some_iff.mp h
    intro p hp
    rcases List.mem_append.mp hp with hp | hp
    · rcases List.mem_append.mp hp with hp | hp
      · obtain ⟨l, -, rfl⟩ := List.mem_map.mp hp
        exact counted_scavenged (by simp [scavengedMetrics]) _ _
      · obtain ⟨t, -, rfl⟩ := List.mem_map.mp hp
        exact counted_scavenged (by simp [scavengedMetrics]) _ _
    · rw [List.mem_singleton.mp hp]
      exact counted_scavenged (by simp [scavengedMetrics]) _ _
  | storage rev =>
    cases h
    intro p hp
    rw [List.mem_singleton.mp hp]
    exact counted_scavenged (by simp [scavengedMetrics]) _ _
  | shared duplicatedPost =>
    cases h
    intro p hp
    rw [List.mem_singleton.mp hp]
    exact counted_scavenged (by simp [scavengedMetrics]) _ _
  | client reader =>
    cases h
    exact client_scavenged reader

theorem scavenge_mem {readings : List (Reading fmt × Timestamp)}
    (h : scavenge readings = some points) :
    ∀ p ∈ points, Scavenged p.1 ∧ ∃ r ∈ readings, p.2 = r.2 := by
  induction readings generalizing points with
  | nil =>
    cases h
    intro p hp
    cases hp
  | cons r readings ih =>
    obtain ⟨reading, created⟩ := r
    simp only [scavenge, Option.bind_eq_bind, Option.bind_eq_some_iff, Option.pure_def,
      Option.some.injEq] at h
    obtain ⟨emitted, hemitted, more, hmore, rfl⟩ := h
    intro p hp
    rcases List.mem_append.mp hp with hp | hp
    · obtain ⟨pt, hpt, rfl⟩ := List.mem_map.mp hp
      exact ⟨reading_scavenged hemitted pt hpt, _, List.mem_cons_self, rfl⟩
    · obtain ⟨hscavenged, r, hr, hcreated⟩ := ih hmore p hp
      exact ⟨hscavenged, r, List.mem_cons_of_mem _ hr, hcreated⟩

/-- The identifiers of the metrics tell their families apart, also from the uptime. -/
theorem scavenged_apart {points : List (MetricPointTimestamp fmt)}
    (h : ∀ p ∈ points, Scavenged p.1) : NamesApart points := by
  have hnonempty : ∀ d ∈ scavengedMetrics, d.identifier ≠ [] := by decide
  have hapart : ∀ d ∈ scavengedMetrics, ∀ e ∈ scavengedMetrics,
      renderMetricName d = renderMetricName e ↔ d.identifier = e.identifier := by decide +kernel
  have huptime : ∀ d ∈ scavengedMetrics, renderMetricName d ≠ renderMetricName uptimeMetric ∧
      d.identifier ≠ str "uptime" := by decide +kernel
  refine ⟨fun p hp => hnonempty _ (h p hp).listed,
    fun p hp q hq => hapart _ (h p hp).listed _ (h q hq).listed, fun p hp => ?_⟩
  obtain ⟨hname, hidentifier⟩ := huptime _ (h p hp).listed
  exact iff_of_false hname (fun hu => hidentifier hu.1)

/-- A time that is not negative is written. -/
theorem timeText_ok {ts : Timestamp} (h : 0 ≤ ts.val) : ∃ text, timeText ts = .ok text := by
  have hmin : ts.val ≠ -2 ^ 63 := by omega
  have htext := toText_spelled 9 ts hmin
  exact ⟨_, by rw [timeText]; simp only [Nat.cast_ofNat] at htext; rw [htext]⟩

theorem renderPoint_text (d : MetricDefinition) (suffix : Str) (attrs : Option (AttributeList fmt))
    (extra : AttributeList fmt) {value : Except RenderError Str} (hvalue : value = .ok v)
    {ts : Timestamp} (h : 0 ≤ ts.val) :
    ∃ text, (renderMetricPoint d suffix attrs extra value ts).text = .ok text := by
  obtain ⟨time, htime⟩ := timeText_ok h
  subst hvalue
  simp [renderMetricPoint, Line.text, htime, bind, Except.bind, pure, Except.pure]

theorem definition_text (d : MetricDefinition) :
    ∀ l ∈ renderDefinition d, ∃ text, l.text = .ok text := by
  intro l hl
  simp only [renderDefinition, List.mem_append, List.mem_singleton] at hl
  rcases hl with (rfl | hl) | hl
  · exact ⟨_, rfl⟩
  · split at hl
    · cases hl
    · rw [List.mem_singleton.mp hl]
      exact ⟨_, rfl⟩
  · split at hl
    · cases hl
    · rw [List.mem_singleton.mp hl]
      exact ⟨_, rfl⟩

/-- The lines of a number or an information are written, where no time is negative. -/
theorem metrics_text {now created : Timestamp} (hnow : 0 ≤ now.val) (hcreated : 0 ≤ created.val)
    {pt : MetricPoint fmt} (hplain : pt.value = .info ∨ ∃ v, pt.value = .scalar v) (b : Bool) :
    ∀ l ∈ renderMetrics now created pt b, ∃ text, l.text = .ok text := by
  intro l hl
  rcases List.mem_append.mp hl with hl | hl
  · rcases List.mem_append.mp hl with hl | hl
    · split at hl
      · exact definition_text _ l hl
      · cases hl
    · rcases hplain with hinfo | ⟨v, hv⟩
      · rw [renderValue, hinfo] at hl
        rw [List.mem_singleton.mp hl]
        exact renderPoint_text _ _ _ _ rfl hnow
      · rw [renderValue, hv] at hl
        dsimp only at hl
        split at hl
        · rw [List.mem_singleton.mp hl]
          exact renderPoint_text _ _ _ _ rfl hnow
        · rw [List.mem_singleton.mp hl]
          exact renderPoint_text _ _ _ _ rfl hnow
  · obtain ⟨text, htext⟩ := timeText_ok hcreated
    split at hl
    · rw [List.mem_singleton.mp hl]
      exact renderPoint_text _ _ _ _ htext hnow
    · rw [List.mem_singleton.mp hl]
      exact renderPoint_text _ _ _ _ htext hnow
    · rw [List.mem_singleton.mp hl]
      exact renderPoint_text _ _ _ _ htext hnow
    · cases hl

theorem points_text {now : Timestamp} (hnow : 0 ≤ now.val) (prev : Str)
    {points : List (MetricPointTimestamp fmt)}
    (h : ∀ p ∈ points, (p.1.value = .info ∨ ∃ v, p.1.value = .scalar v) ∧
      p.1.ts = Timestamp.min ∧ 0 ≤ p.2.val) :
    ∀ l ∈ renderPoints now prev points, ∃ text, l.text = .ok text := by
  induction points generalizing prev with
  | nil =>
    intro l hl
    cases hl
  | cons p points ih =>
    obtain ⟨⟨hplain, hts, hcreated⟩, hpoints⟩ := List.forall_mem_cons.mp h
    intro l hl
    rw [renderPoints, hts, if_pos rfl] at hl
    rcases List.mem_append.mp hl with hl | hl
    · exact metrics_text hnow hcreated hplain _ l hl
    · exact ih _ hpoints l hl

theorem outputText_ok {lines : List Line} (h : ∀ l ∈ lines, ∃ text, l.text = .ok text) :
    ∃ text, outputText lines = .ok text := by
  induction lines with
  | nil => exact ⟨[], rfl⟩
  | cons line lines ih =>
    obtain ⟨⟨first, hfirst⟩, hlines⟩ := List.forall_mem_cons.mp h
    obtain ⟨rest, hrest⟩ := ih hlines
    simp [outputText, hfirst, hrest, bind, Except.bind, pure, Except.pure]

theorem toDecimalString_ok {x : Decimal decimals} (h : x.toText = .ok text) :
    ∃ s, x.toDecimalString = .ok s := by
  unfold Decimal.toDecimalString
  split
  · exact ⟨_, rfl⟩
  · rename_i e he
    cases h.symm.trans he

/-- A collection after the collector was made, and both past the epoch, succeeds. -/
theorem collectLk_total {now start : Timestamp} (hstart : 0 ≤ start.val)
    (hnow : start.val ≤ now.val) (points : List (MetricPointTimestamp fmt)) :
    ∃ lines, collectLk now start points = .ok lines := by
  have hfits : Fits (now.val - start.val) := by
    have hhigh := now.property.2
    exact ⟨by omega, by omega⟩
  have htext := toText_spelled 9 ⟨now.val - start.val, hfits⟩ (by simp only; omega)
  simp only [Nat.cast_ofNat] at htext
  obtain ⟨uptime, huptime⟩ := toDecimalString_ok htext
  simp [collectLk, checked_ok hfits, huptime, bind, Except.bind, pure, Except.pure]

def twoReadings : List (Reading noFloats × Timestamp) :=
  [(.database (str "--- level 0 ---\n 7:4096['a' .. 'z']\n") [(str "events", 8192)] (str "65536"),
      natural 1 (by decide)),
    (.client { sensor :=
      { connectionID := 1, ident := str "10.0.0.1", userAgent := str "nostril",
        eventCreatedKinds := [(1, 2), (7, 1)] } }, natural 2 (by decide))]

end NostrServer.Telemetry
