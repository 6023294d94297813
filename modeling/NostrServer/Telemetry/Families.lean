import NostrServer.Telemetry.Collector
import NostrServer.Lib.Grouping
import NostrServer.Lib.Ranking

namespace NostrServer.Telemetry

open Grouping

variable {fmt : FloatFormat}

/-- A line as part of a family: the line of its type announces it. -/
def Line.mark : Line → Mark Str
  | .type name _ => .header name
  | .sample name _ _ _ _ => .entry name
  | _ => .other

/-- Every family has one line of type, its samples come after it, and no sample of another
family comes between them. -/
def FamiliesOnce (lines : List Line) : Prop := Once (lines.map Line.mark)

def summarySamples : MetricType → Nat
  | .summary | .histogram | .gaugeHistogram => 2
  | _ => 0

/-- How many samples a point has. A summary under a type that does not fit has none. -/
def sampleCount (pt : MetricPoint fmt) : Nat :=
  (match pt.value with
    | .info | .scalar _ => 1
    | .state stdef _ => stdef.values.length
    | .summary _ _ => summarySamples pt.definition.type
    | .histogram _ _ boundaries _ => summarySamples pt.definition.type +
        if pt.definition.type = .histogram then boundaries.texts.length + 1 else 0) +
  match pt.definition.type with
    | .summary | .counter | .histogram => 1
    | _ => 0

theorem mark_point (d : MetricDefinition) (suffix : Str) (attrs : Option (AttributeList fmt))
    (extra : AttributeList fmt) (value : Except RenderError Str) (ts : Timestamp) :
    (renderMetricPoint d suffix attrs extra value ts).mark = .entry (renderMetricName d) := rfl

theorem marks_summary (ts : Timestamp) (d : MetricDefinition) (attrs : Option (AttributeList fmt))
    (sum : Scalar fmt) (count : UInt64) : (renderSummary ts d attrs sum count).map Line.mark =
      List.replicate (summarySamples d.type) (.entry (renderMetricName d)) := by
  unfold renderSummary summarySamples
  split <;> simp_all [mark_point, List.replicate]

theorem marks_buckets (ts : Timestamp) (d : MetricDefinition) (attrs : Option (AttributeList fmt))
    (les : List Str) (counts : List UInt64) (sum : UInt64) :
    (renderBuckets ts d attrs les counts sum).map Line.mark =
      List.replicate (les.length + 1) (.entry (renderMetricName d)) := by
  induction les generalizing counts sum with
  | nil => simp [renderBuckets, mark_point]
  | cons le les ih =>
    rw [renderBuckets.eq_def, List.length_cons, List.replicate_succ]
    simp [mark_point, ih]

theorem marks_metrics (now created : Timestamp) (pt : MetricPoint fmt) (b : Bool) :
    (renderMetrics now created pt b).map Line.mark =
      (if b then (renderDefinition pt.definition).map Line.mark else []) ++
        List.replicate (sampleCount pt) (.entry (renderMetricName pt.definition)) := by
  have hvalue : (renderValue now pt).map Line.mark = List.replicate (match pt.value with
      | .info | .scalar _ => 1
      | .state stdef _ => stdef.values.length
      | .summary _ _ => summarySamples pt.definition.type
      | .histogram _ _ boundaries _ => summarySamples pt.definition.type +
          if pt.definition.type = .histogram then boundaries.texts.length + 1 else 0)
      (.entry (renderMetricName pt.definition)) := by
    unfold renderValue
    cases pt.value with
    | info => simp [mark_point]
    | scalar v =>
      simp only
      split <;> simp [mark_point]
    | state stdef val =>
      simp only [renderStates, List.map_map]
      rw [← List.length_zipIdx (l := stdef.values), ← List.map_const]
      rfl
    | summary sum count => exact marks_summary _ _ _ _ _
    | histogram sum count boundaries counts =>
      rw [List.map_append, marks_summary, List.replicate_add]
      split <;> simp [marks_buckets]
  rw [renderMetrics, List.map_append, List.map_append, hvalue, sampleCount, List.replicate_add,
    List.append_assoc]
  congr 1
  · cases b <;> rfl
  · congr 1
    split <;> simp_all [mark_point]

/-- What families are told by: the definition of a point, and how many samples it has. -/
def definitions : Writer (MetricDefinition × Nat) Str Str where
  key p := p.1.identifier
  name p := renderMetricName p.1
  notes p := (if p.1.description.isEmpty then 0 else 1) + if p.1.unit.isEmpty then 0 else 1
  entries p := p.2
  first := []

theorem marks_renderPoints (now : Timestamp) (prev : Str)
    (points : List (MetricPointTimestamp fmt)) :
    (renderPoints now prev points).map Line.mark =
      definitions.marks prev (points.map (fun p => (p.1.definition, sampleCount p.1))) := by
  induction points generalizing prev with
  | nil => rfl
  | cons p points ih =>
    obtain ⟨pt, created⟩ := p
    have hdefinition : (renderDefinition pt.definition).map Line.mark =
        .header (renderMetricName pt.definition) ::
          List.replicate (definitions.notes (pt.definition, sampleCount pt)) .other := by
      simp only [renderDefinition, definitions]
      split <;> split <;> rfl
    rw [renderPoints, List.map_append, marks_metrics, ih, hdefinition, List.map_cons, Writer.marks]
    congr 2
    unfold Writer.heading
    by_cases h : prev = pt.definition.identifier
    · simp [h, definitions]
    · simp [h, definitions]

def familyOrder (points : List (MetricPointTimestamp fmt)) : List (MetricDefinition × Nat) :=
  (points.mergeSort pointLe).map (fun p => (p.1.definition, sampleCount p.1)) ++ [(uptimeMetric, 2)]

theorem collectLk_marks {points : List (MetricPointTimestamp fmt)}
    (h : collectLk now start points = .ok lines) :
    lines.map Line.mark = definitions.marks definitions.first (familyOrder points) := by
  obtain ⟨uptime, rfl⟩ := collectLk_ok h
  rw [marks_renderPoints, renderOrder, List.map_append]
  rfl

/-- Points are ordered by the identifier, then by the time. -/
theorem pointLe_ranking : Ranking pointLe
    (fun p : MetricPointTimestamp fmt => p.1.definition.identifier) (fun p => p.1.ts.val) where
  iff a b := by simp [pointLe]
  key_irrefl := List.lt_irrefl
  key_trans := List.lt_trans
  key_total := Std.lt_trichotomy
  rank_trans := Int.le_trans
  rank_total := Int.le_total

def Ascending (ds : List (MetricDefinition × Nat)) : Prop :=
  ds.Pairwise (fun d e => ¬ e.1.identifier < d.1.identifier)

theorem ascending_sorted (points : List (MetricPointTimestamp fmt)) :
    Ascending ((points.mergeSort pointLe).map (fun p => (p.1.definition, sampleCount p.1))) := by
  unfold Ascending
  rw [List.pairwise_map]
  exact (pointLe_ranking.sorted points).imp pointLe_ranking.key_le

/-- What stands between two definitions of one identifier has it too. -/
theorem Ascending.between {ds : List (MetricDefinition × Nat)} (h : Ascending ds)
    (hsplit : ds = a ++ p :: (b ++ q :: c)) :
    (∀ r ∈ b ++ [q], r.1.identifier = p.1.identifier) ↔ p.1.identifier = q.1.identifier := by
  constructor
  · intro hall
    exact (hall q (by simp)).symm
  · intro hkey r hr
    rcases List.mem_append.mp hr with hr | hr
    · subst hsplit
      obtain ⟨-, hp, -⟩ := List.pairwise_append.mp h
      obtain ⟨hpr, hrest⟩ := List.pairwise_cons.mp hp
      have hrq := (List.pairwise_append.mp hrest).2.2 r hr q List.mem_cons_self
      rcases Std.lt_trichotomy r.1.identifier p.1.identifier with hlt | heq | hgt
      · exact absurd hlt (hpr r (by simp [hr]))
      · exact heq
      · exact absurd (hkey ▸ hgt) hrq
    · rw [List.mem_singleton.mp hr, hkey]

/-- Up to a definition after all of them, one identifier is kept only as the greatest. -/
theorem Ascending.up_to {ds : List (MetricDefinition × Nat)} (h : Ascending ds)
    (hsplit : ds = a ++ p :: b) (u : MetricDefinition × Nat) :
    (∀ r ∈ b ++ [u], r.1.identifier = p.1.identifier) ↔
      p.1.identifier = u.1.identifier ∧ ∀ r ∈ ds, ¬ u.1.identifier < r.1.identifier := by
  subst hsplit
  obtain ⟨-, hp, hbefore⟩ := List.pairwise_append.mp h
  obtain ⟨hafter, -⟩ := List.pairwise_cons.mp hp
  constructor
  · intro hall
    have hu := hall u (by simp)
    refine ⟨hu.symm, ?_⟩
    intro r hr
    rw [hu]
    rcases List.mem_append.mp hr with hr | hr
    · exact hbefore r hr p List.mem_cons_self
    · rcases List.mem_cons.mp hr with rfl | hr
      · exact List.lt_irrefl _
      · rw [hall r (by simp [hr])]
        exact List.lt_irrefl _
  · rintro ⟨hu, hall⟩ r hr
    rcases List.mem_append.mp hr with hr | hr
    · rcases Std.lt_trichotomy r.1.identifier p.1.identifier with hlt | heq | hgt
      · exact absurd hlt (hafter r hr)
      · exact heq
      · exact absurd (hu ▸ hgt) (hall r (by simp [hr]))
    · rw [List.mem_singleton.mp hr, hu]

/-- The identifiers and units tell the families apart: no identifier is empty, two points
have one name exactly when they have one identifier, and the name of the uptime belongs to
the points of its identifier exactly when none comes after them. -/
structure NamesApart (points : List (MetricPointTimestamp fmt)) : Prop where
  nonempty : ∀ p ∈ points, p.1.definition.identifier ≠ []
  apart : ∀ p ∈ points, ∀ q ∈ points,
    renderMetricName p.1.definition = renderMetricName q.1.definition ↔
      p.1.definition.identifier = q.1.definition.identifier
  uptime : ∀ p ∈ points, renderMetricName p.1.definition = renderMetricName uptimeMetric ↔
    p.1.definition.identifier = str "uptime" ∧
      ∀ q ∈ points, ¬ str "uptime" < q.1.definition.identifier

theorem split_of_mem {l : List α} (hx : x ∈ l) (hy : y ∈ l) :
    x = y ∨ (∃ a b c, l = a ++ x :: (b ++ y :: c)) ∨ ∃ a b c, l = a ++ y :: (b ++ x :: c) := by
  obtain ⟨a, b, rfl⟩ := List.append_of_mem hx
  rcases List.mem_append.mp hy with hy | hy
  · obtain ⟨a₁, a₂, rfl⟩ := List.append_of_mem hy
    exact Or.inr (Or.inr ⟨a₁, a₂, b, by simp⟩)
  · rcases List.mem_cons.mp hy with rfl | hy
    · exact Or.inl rfl
    · obtain ⟨b₁, b₂, rfl⟩ := List.append_of_mem hy
      exact Or.inr (Or.inl ⟨a, b₁, b₂, rfl⟩)

/-- What tells families apart, of ascending definitions and of the one after all of them. -/
structure DefinitionsApart (ds : List (MetricDefinition × Nat)) (u : MetricDefinition × Nat) :
    Prop where
  nonempty : ∀ d ∈ ds, d.1.identifier ≠ []
  apart : ∀ d ∈ ds, ∀ e ∈ ds,
    renderMetricName d.1 = renderMetricName e.1 ↔ d.1.identifier = e.1.identifier
  last : ∀ d ∈ ds, renderMetricName d.1 = renderMetricName u.1 ↔
    d.1.identifier = u.1.identifier ∧ ∀ e ∈ ds, ¬ u.1.identifier < e.1.identifier

/-- Of ascending definitions none is empty if the first is not. -/
theorem Ascending.nonempty {ds : List (MetricDefinition × Nat)} (h : Ascending ds)
    (hfirst : ∀ d after, ds = d :: after → d.1.identifier ≠ []) :
    ∀ d ∈ ds, d.1.identifier ≠ [] := by
  intro e he hempty
  cases ds with
  | nil => cases he
  | cons d ds =>
    have hne : d.1.identifier ≠ [] := hfirst d ds rfl
    rcases List.mem_cons.mp he with rfl | he
    · exact hne hempty
    · have hle := (List.pairwise_cons.mp h).1 _ he
      rw [hempty] at hle
      cases hd : d.1.identifier with
      | nil => exact hne hd
      | cons c rest => exact hle (hd ▸ List.nil_lt_cons c rest)

theorem Ascending.apart_of_runs {ds : List (MetricDefinition × Nat)}
    {u : MetricDefinition × Nat} (h : Ascending ds)
    (hruns : definitions.NamedByRuns (ds ++ [u])) : DefinitionsApart ds u := by
  obtain ⟨hfirst, hpairs⟩ := (definitions.namedByRuns_iff (ds ++ [u])).mp hruns
  refine ⟨?_, ?_, ?_⟩
  · apply h.nonempty
    intro d after he
    exact hfirst d (after ++ [u]) (by simp [he])
  · intro d hd e he
    rcases split_of_mem hd he with rfl | ⟨a, b, c, hsplit⟩ | ⟨a, b, c, hsplit⟩
    · simp
    · exact (hpairs a d b e (c ++ [u]) (by simp [hsplit])).trans (h.between hsplit)
    · have hed := (hpairs a e b d (c ++ [u]) (by simp [hsplit])).trans (h.between hsplit)
      exact eq_comm.trans (hed.trans eq_comm)
  · intro d hd
    obtain ⟨a, b, hsplit⟩ := List.append_of_mem hd
    exact (hpairs a d b u [] (by simp [hsplit])).trans (h.up_to hsplit u)

theorem Ascending.runs_of_apart {ds : List (MetricDefinition × Nat)}
    {u : MetricDefinition × Nat} (h : Ascending ds) (hu : u.1.identifier ≠ [])
    (hapart : DefinitionsApart ds u) : definitions.NamedByRuns (ds ++ [u]) := by
  apply (definitions.namedByRuns_iff (ds ++ [u])).mpr
  refine ⟨?_, ?_⟩
  · intro d after he
    cases ds with
    | nil =>
      obtain ⟨rfl, -⟩ := List.cons_eq_cons.mp he
      exact hu
    | cons d' ds =>
      obtain ⟨rfl, -⟩ := List.cons_eq_cons.mp he
      exact hapart.nonempty d' List.mem_cons_self
  · intro a d b e c he
    rw [← List.cons_append, ← List.append_assoc] at he
    rcases snoc_split.mp he with ⟨rfl, hds, rfl⟩ | ⟨c', rfl, hds⟩
    · exact (hapart.last d (by simp [← hds])).trans (h.up_to hds.symm e).symm
    · have hsplit : ds = a ++ d :: (b ++ e :: c') := by simp [hds]
      exact (hapart.apart d (by simp [hsplit]) e (by simp [hsplit])).trans
        (h.between hsplit).symm

theorem namedByRuns_order (points : List (MetricPointTimestamp fmt)) :
    definitions.NamedByRuns (familyOrder points) ↔ NamesApart points := by
  have hsorted := ascending_sorted points
  have hall (P : MetricDefinition → Prop) :
      (∀ d ∈ (points.mergeSort pointLe).map (fun p => (p.1.definition, sampleCount p.1)), P d.1) ↔
        ∀ p ∈ points, P p.1.definition := by
    rw [List.forall_mem_map]
    exact forall_congr' (fun p => imp_congr_left (List.mergeSort_perm points pointLe).mem_iff)
  rw [familyOrder]
  generalize (points.mergeSort pointLe).map (fun p => (p.1.definition, sampleCount p.1)) = ds
    at hsorted hall
  have hlast := hall (fun d => ¬ str "uptime" < d.identifier)
  constructor
  · intro hruns
    have h := hsorted.apart_of_runs hruns
    refine ⟨(hall (fun d => d.identifier ≠ [])).mp h.nonempty, ?_, ?_⟩
    · intro p hp
      apply (hall (fun e => renderMetricName p.1.definition = renderMetricName e ↔
        p.1.definition.identifier = e.identifier)).mp
      intro e he
      exact (hall (fun d => renderMetricName d = renderMetricName e.1 ↔
        d.identifier = e.1.identifier)).mp (fun d hd => h.apart d hd e he) p hp
    · rw [← hlast]
      exact (hall (fun d => renderMetricName d = renderMetricName uptimeMetric ↔
        d.identifier = str "uptime" ∧ ∀ e ∈ ds, ¬ str "uptime" < e.1.identifier)).mp h.last
  · intro h
    apply hsorted.runs_of_apart (by decide)
    refine ⟨(hall (fun d => d.identifier ≠ [])).mpr h.nonempty, ?_, ?_⟩
    · intro d hd
      apply (hall (fun e => renderMetricName d.1 = renderMetricName e ↔
        d.1.identifier = e.identifier)).mpr
      intro q hq
      exact (hall (fun d => renderMetricName d = renderMetricName q.1.definition ↔
        d.identifier = q.1.definition.identifier)).mpr (fun p hp => h.apart p hp q hq) d hd
    · have huptime := h.uptime
      rw [← hlast] at huptime
      exact (hall (fun d => renderMetricName d = renderMetricName uptimeMetric ↔
        d.identifier = str "uptime" ∧ ∀ e ∈ ds, ¬ str "uptime" < e.1.identifier)).mpr huptime

/-- The families of an output are in order exactly when every point fits after those before
it; where every point has a sample, exactly when identifiers and units tell the families
apart. -/
theorem families_once_iff (now start : Timestamp) (points : List (MetricPointTimestamp fmt))
    (lines : List Line) (h : collectLk now start points = .ok lines) :
    (FamiliesOnce lines ↔ ∀ before d after, familyOrder points = before ++ d :: after →
      definitions.Fits before d) ∧
    ((∀ p ∈ points, 0 < sampleCount p.1) → (FamiliesOnce lines ↔ NamesApart points)) := by
  have hfits : FamiliesOnce lines ↔ ∀ before d after, familyOrder points = before ++ d :: after →
      definitions.Fits before d := by
    rw [FamiliesOnce, collectLk_marks h]
    exact definitions.once_marks_iff (familyOrder points)
  refine ⟨hfits, ?_⟩
  intro hall
  have hprint : ∀ d ∈ familyOrder points, 0 < definitions.entries d := by
    intro d hd
    rcases List.mem_append.mp hd with hd | hd
    · obtain ⟨p, hp, rfl⟩ := List.mem_map.mp hd
      exact hall p ((List.mergeSort_perm points pointLe).mem_iff.mp hp)
    · rw [List.mem_singleton.mp hd]
      exact Nat.zero_lt_succ 1
  rw [hfits, definitions.fits_iff_namedByRuns hprint, namedByRuns_order]

def connectionsPoint : MetricPointTimestamp noFloats :=
  ({ definition := { type := .gauge, identifier := str "connections" },
     value := .scalar (.integer 3) }, madeAt)

theorem connections_once : ∃ lines,
    collectLk collectedAt madeAt [connectionsPoint] = .ok lines ∧ FamiliesOnce lines := by
  have hnames : NamesApart [connectionsPoint] := by
    refine ⟨?_, ?_, ?_⟩ <;> simp only [List.forall_mem_singleton] <;> decide
  obtain ⟨lines, hlines⟩ : ∃ lines,
      collectLk collectedAt madeAt [connectionsPoint] = .ok lines := ⟨_, rfl⟩
  refine ⟨lines, hlines, ?_⟩
  exact ((families_once_iff _ _ _ _ hlines).2 (by simp [connectionsPoint, sampleCount])).mpr hnames

/-- A gauge of the name of the uptime, without its unit. -/
def uptimeGauge : MetricPointTimestamp noFloats :=
  ({ definition := { type := .gauge, identifier := str "uptime" },
     value := .scalar (.integer 3) }, madeAt)

/-- The samples of `uptime_seconds` come without a line of type. -/
theorem uptime_unannounced : ¬ ∀ lines,
    collectLk collectedAt madeAt [uptimeGauge] = .ok lines → FamiliesOnce lines := by
  intro h
  obtain ⟨lines, hlines⟩ : ∃ lines,
      collectLk collectedAt madeAt [uptimeGauge] = .ok lines := ⟨_, rfl⟩
  have honce := h lines hlines
  rw [FamiliesOnce, collectLk_marks hlines, familyOrder, List.mergeSort_singleton] at honce
  have hone := honce.one (str "uptime_seconds") (Or.inr (by decide))
  revert hone
  decide

end NostrServer.Telemetry
