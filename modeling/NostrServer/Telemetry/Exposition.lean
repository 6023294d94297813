import NostrServer.Telemetry.Collector

namespace NostrServer.Telemetry

variable {fmt : FloatFormat}

/-- What names of metrics are written with. -/
def nameChar (c : UInt8) : Bool := isAlnum c || c = 58 || c = 95

/-- A value and a time, with a blank between them. -/
def readValues (text : Str) : Option (Str × Str) :=
  match text.splitOn 32 with
  | [value, time] => some (value, time)
  | _ => none

structure Sample where
  name : Str
  labels : List (Str × Str)
  value : Str
  time : Str
deriving DecidableEq

def readSample (line : Str) : Option Sample :=
  let name := line.takeWhile nameChar
  match line.dropWhile nameChar with
  | 32 :: rest => (readValues rest).map (fun r => ⟨name, [], r.1, r.2⟩)
  | 123 :: rest =>
    match readLabels (123 :: rest) with
    | some (labels, 32 :: rest) => (readValues rest).map (fun r => ⟨name, labels, r.1, r.2⟩)
    | _ => none
  | _ => none

theorem renderMetricIdentifier_chars (name : Str) :
    ∀ c ∈ renderMetricIdentifier name, nameChar c = true := by
  have hchar (c : UInt8) : nameChar (if isAlnum c || c == 58 then c else 95) = true := by
    by_cases h : (isAlnum c || c == 58) = true
    · rw [if_pos h]
      rcases Bool.or_eq_true_iff.mp h with h | h
      · simp [nameChar, h]
      · simp [nameChar, eq_of_beq h]
    · rw [if_neg h]
      rfl
  cases name with
  | nil => exact List.all_eq_true.mp (by decide)
  | cons f name =>
    intro c hc
    rcases List.mem_append.mp hc with hc | hc
    · split at hc
      · rw [List.mem_singleton.mp hc]
        rfl
      · cases hc
    · obtain ⟨d, -, rfl⟩ := List.mem_map.mp hc
      exact hchar d

theorem renderMetricName_chars (d : MetricDefinition) :
    ∀ c ∈ renderMetricName d, nameChar c = true := by
  intro c hc
  rcases List.mem_append.mp hc with hc | hc
  · exact renderMetricIdentifier_chars _ c hc
  · split at hc
    · cases hc
    · rcases List.mem_cons.mp hc with rfl | hc
      · rfl
      · exact renderMetricIdentifier_chars _ c hc

/-- Escaped text has no line break. -/
theorem escape_unbroken (s : Str) : (10 : UInt8) ∉ escaping.escape s := by
  intro h
  rcases escaping.mem_escape h with h | ⟨c, h⟩ | h
  · cases h
  · have hback := escaping.back_letter c 10 h
    cases hback
  · cases h

theorem unbroken_of_chars {s : Str} (h : ∀ c ∈ s, nameChar c = true) : (10 : UInt8) ∉ s :=
  fun hmem => absurd (h 10 hmem) (by decide)

theorem unbroken_of_plain (h : Plain s) : (10 : UInt8) ∉ s := fun hmem => (h 10 hmem).1 rfl

theorem renderItem_unbroken (kv : AttributeKeyValue fmt) : (10 : UInt8) ∉ renderItem kv := by
  have hkey : (10 : UInt8) ∉ renderAttributeKey kv.1 :=
    fun hmem => absurd ((renderAttributeKey_label kv.1).2.1 10 hmem) (by decide)
  have hvalue := escape_unbroken kv.2.text
  simp [renderItem, renderAttributeValue, render_eq, hkey, hvalue]

theorem renderAttributes_unbroken (list : Option (AttributeList fmt)) (extra : AttributeList fmt) :
    (10 : UInt8) ∉ renderAttributes list extra := by
  by_cases h : list.getD [] ++ extra = []
  · obtain ⟨hlist, rfl⟩ := List.append_eq_nil_iff.mp h
    simp [renderAttributes, hlist]
  · obtain ⟨kv, rest, hcons⟩ := List.exists_cons_of_ne_nil h
    rw [renderAttributes_eq list extra h, hcons, intercalate_items]
    have hrest : (10 : UInt8) ∉ rest.flatMap (fun kv => 44 :: renderItem kv) := by
      intro hmem
      obtain ⟨kv', -, hmem⟩ := List.mem_flatMap.mp hmem
      rcases List.mem_cons.mp hmem with hmem | hmem
      · cases hmem
      · exact renderItem_unbroken kv' hmem
    simp [renderItem_unbroken kv, hrest]

/-- A line that a collection writes: its names are legal, its labels rendered, and its value
and its time are plain text. -/
def Line.Sound (fmt : FloatFormat) : Line → Prop
  | .type name _ | .help name _ | .unit name _ => ∀ c ∈ name, nameChar c = true
  | .sample name suffix labels value time =>
    (∀ c ∈ name ++ suffix, nameChar c = true) ∧
      (∃ (list : Option (AttributeList fmt)) (extra : AttributeList fmt),
        labels = renderAttributes list extra) ∧
      (∀ v, value = .ok v → Plain v) ∧ ∀ t, time = .ok t → Plain t

theorem timeText_plain (h : timeText ts = .ok t) : Plain t := by
  unfold timeText at h
  split at h
  · rename_i text htext
    cases h
    exact plain_of_numeric (toText_numeric htext)
  · cases h

theorem point_sound (d : MetricDefinition) (list : Option (AttributeList fmt))
    (extra : AttributeList fmt) (ts : Timestamp) (hsuffix : suffix.all nameChar = true)
    (hvalue : ∀ v, value = .ok v → Plain v) :
    (renderMetricPoint d suffix list extra value ts).Sound fmt := by
  refine ⟨?_, ⟨list, extra, rfl⟩, hvalue, fun t => timeText_plain⟩
  intro c hc
  rcases List.mem_append.mp hc with hc | hc
  · exact renderMetricName_chars d c hc
  · exact List.all_eq_true.mp hsuffix c hc

theorem plain_ok (h : Plain s) : ∀ v, (.ok s : Except RenderError Str) = .ok v → Plain v := by
  rintro v ⟨⟩
  exact h

theorem definition_sound (d : MetricDefinition) : ∀ l ∈ renderDefinition d, l.Sound fmt := by
  have hname := renderMetricName_chars d
  intro l hl
  rcases List.mem_append.mp hl with hl | hl
  · rcases List.mem_append.mp hl with hl | hl
    · rw [List.mem_singleton.mp hl]
      exact hname
    · split at hl
      · cases hl
      · rw [List.mem_singleton.mp hl]
        exact hname
  · split at hl
    · cases hl
    · rw [List.mem_singleton.mp hl]
      exact hname

theorem states_sound (ts : Timestamp) (d : MetricDefinition) (attrs : Option (AttributeList fmt))
    (stdef : StateDef) (val : UInt64) :
    ∀ l ∈ renderStates ts d attrs stdef val, l.Sound fmt := by
  intro l hl
  obtain ⟨n, -, rfl⟩ := List.mem_map.mp hl
  apply point_sound
  · rfl
  · intro v hv
    cases hs : stateSelected d.type (UInt64.ofNat n.2) val with
    | error e =>
      rw [hs] at hv
      cases hv
    | ok b =>
      rw [hs] at hv
      cases hv
      exact putInteger_plain _

theorem summary_sound (ts : Timestamp) (d : MetricDefinition) (attrs : Option (AttributeList fmt))
    (sum : Scalar fmt) (count : UInt64) :
    ∀ l ∈ renderSummary ts d attrs sum count, l.Sound fmt := by
  have hpair (s s' : Str) (hs : s.all nameChar = true) (hs' : s'.all nameChar = true) :
      ∀ l ∈ [renderMetricPoint d s attrs [] (.ok (renderScalar sum)) ts,
        renderMetricPoint d s' attrs [] (.ok (putInteger count.toNat)) ts], l.Sound fmt := by
    intro l hl
    rcases List.mem_pair.mp hl with rfl | rfl
    · exact point_sound d attrs [] ts hs (plain_ok (renderScalar_plain sum))
    · exact point_sound d attrs [] ts hs' (plain_ok (putInteger_plain _))
  unfold renderSummary
  split
  · exact hpair _ _ (by decide) (by decide)
  · exact hpair _ _ (by decide) (by decide)
  · exact hpair _ _ (by decide) (by decide)
  · intro l hl
    cases hl

theorem buckets_sound (ts : Timestamp) (d : MetricDefinition) (attrs : Option (AttributeList fmt))
    (les : List Str) (counts : List UInt64) (sum : UInt64) :
    ∀ l ∈ renderBuckets ts d attrs les counts sum, l.Sound fmt := by
  have hpoint (le : Str) (value : Except RenderError Str) (hv : ∀ v, value = .ok v → Plain v) :
      (renderMetricPoint d (str "_bucket") attrs [(str "le", .string le)] value ts).Sound fmt :=
    point_sound d attrs _ ts (by decide) hv
  induction les generalizing counts sum with
  | nil =>
    intro l hl
    cases counts with
    | nil =>
      rw [renderBuckets, List.mem_singleton] at hl
      rw [hl]
      exact hpoint _ _ (fun v hv => by cases hv)
    | cons c counts =>
      rw [renderBuckets, List.mem_singleton] at hl
      rw [hl]
      exact hpoint _ _ (plain_ok (putInteger_plain _))
  | cons le les ih =>
    intro l hl
    cases counts with
    | nil =>
      rw [renderBuckets] at hl
      rcases List.mem_cons.mp hl with rfl | hl
      · exact hpoint _ _ (fun v hv => by cases hv)
      · exact ih _ _ l hl
    | cons c counts =>
      rw [renderBuckets] at hl
      rcases List.mem_cons.mp hl with rfl | hl
      · exact hpoint _ _ (plain_ok (putInteger_plain _))
      · exact ih _ _ l hl

theorem value_sound (ts : Timestamp) (pt : MetricPoint fmt) :
    ∀ l ∈ renderValue ts pt, l.Sound fmt := by
  have hpoint (suffix value : Str) (hs : suffix.all nameChar = true) (hv : Plain value) :
      ∀ l ∈ [renderMetricPoint pt.definition suffix pt.attributes [] (.ok value) ts],
        l.Sound fmt := by
    intro l hl
    rw [List.mem_singleton.mp hl]
    exact point_sound _ _ [] ts hs (plain_ok hv)
  unfold renderValue
  cases pt.value with
  | info => exact hpoint _ _ (by decide) (putInteger_plain 1)
  | state stdef val => exact states_sound ts pt.definition pt.attributes stdef val
  | summary sum count => exact summary_sound ts pt.definition pt.attributes sum count
  | histogram sum count boundaries counts =>
    intro l hl
    rcases List.mem_append.mp hl with hl | hl
    · exact summary_sound _ _ _ _ _ l hl
    · split at hl
      · exact buckets_sound _ _ _ _ _ _ l hl
      · cases hl
  | scalar v =>
    simp only
    split
    · exact hpoint _ _ (by decide) (renderScalar_plain v)
    · exact hpoint _ _ (by decide) (renderScalar_plain v)

theorem metrics_sound (now created : Timestamp) (pt : MetricPoint fmt) (b : Bool) :
    ∀ l ∈ renderMetrics now created pt b, l.Sound fmt := by
  intro l hl
  rcases List.mem_append.mp hl with hl | hl
  · rcases List.mem_append.mp hl with hl | hl
    · split at hl
      · exact definition_sound pt.definition l hl
      · cases hl
    · exact value_sound now pt l hl
  · have hcreated : ∀ l ∈ [renderMetricPoint pt.definition (str "_created") pt.attributes []
        (timeText created) now], l.Sound fmt := by
      intro l hl
      rw [List.mem_singleton.mp hl]
      exact point_sound _ _ [] now (by decide) (fun v hv => timeText_plain hv)
    split at hl
    · exact hcreated l hl
    · exact hcreated l hl
    · exact hcreated l hl
    · cases hl

theorem points_sound (now : Timestamp) (prev : Str) (points : List (MetricPointTimestamp fmt)) :
    ∀ l ∈ renderPoints now prev points, l.Sound fmt := by
  induction points generalizing prev with
  | nil =>
    intro l hl
    cases hl
  | cons p points ih =>
    intro l hl
    rcases List.mem_append.mp hl with hl | hl
    · exact metrics_sound _ _ _ _ l hl
    · exact ih _ l hl

theorem collectLk_sound {points : List (MetricPointTimestamp fmt)}
    (h : collectLk now start points = .ok lines) : ∀ l ∈ lines, l.Sound fmt := by
  obtain ⟨uptime, rfl⟩ := collectLk_ok h
  exact points_sound now [] _

def outputText : List Line → Except RenderError Str
  | [] => .ok []
  | line :: lines => do
    let text ← line.text
    let rest ← outputText lines
    return text ++ rest

/-- What a line of the text is read as: a sample with its labels, or a comment. -/
def Line.ReadsAs (fmt : FloatFormat) (body : Str) : Line → Prop
  | .type _ _ | .help _ _ | .unit _ _ => body.head? = some 35
  | .sample name suffix labels value time =>
    ∃ (list : Option (AttributeList fmt)) (extra : AttributeList fmt) (v t : Str),
      labels = renderAttributes list extra ∧ value = .ok v ∧ time = .ok t ∧
      readSample body = some ⟨name ++ suffix,
        (list.getD [] ++ extra).map (fun kv => (renderAttributeKey kv.1, kv.2.text)), v, t⟩

theorem readValues_plain (hv : Plain v) (ht : Plain t) :
    readValues (v ++ 32 :: t) = some (v, t) := by
  have hvalue : (32 : UInt8) ∉ v := fun hmem => (hv 32 hmem).2.1 rfl
  have htime : (32 : UInt8) ∉ t := fun hmem => (ht 32 hmem).2.1 rfl
  rw [readValues, List.splitOn_append_cons_self_of_not_mem hvalue, List.splitOn_eq_singleton htime]

theorem readSample_rendered (hname : ∀ c ∈ name, nameChar c = true)
    (list : Option (AttributeList fmt)) (extra : AttributeList fmt) (hv : Plain v) (ht : Plain t) :
    readSample (name ++ (renderAttributes list extra ++ 32 :: (v ++ 32 :: t))) = some ⟨name,
      (list.getD [] ++ extra).map (fun kv => (renderAttributeKey kv.1, kv.2.text)), v, t⟩ := by
  have hspace : nameChar 32 = false := rfl
  have hbrace : nameChar 123 = false := rfl
  unfold readSample
  rw [List.takeWhile_append_of_pos hname, List.dropWhile_append_of_pos hname]
  by_cases h : list.getD [] ++ extra = []
  · have hnone : renderAttributes list extra = [] := by
      obtain ⟨hlist, rfl⟩ := List.append_eq_nil_iff.mp h
      simp [renderAttributes, hlist]
    simp [hnone, hspace, readValues_plain hv ht, h]
  · have hread := readLabels_rendered list extra h (32 :: (v ++ 32 :: t))
    have hopen := renderAttributes_eq list extra h
    generalize renderAttributes list extra = labels at hread hopen
    subst hopen
    simp only [List.cons_append, hbrace, Bool.false_eq_true, not_false_eq_true,
      List.takeWhile_cons_of_neg, List.dropWhile_cons_of_neg, List.append_nil] at hread ⊢
    rw [hread]
    simp [readValues_plain hv ht]

/-- The text of a line is one line, and reads as it. -/
theorem sound_text {line : Line} {text : Str} (h : line.Sound fmt) (ht : line.text = .ok text) :
    ∃ body, text = body ++ [10] ∧ 10 ∉ body ∧ line.ReadsAs fmt body := by
  have hkind : (10 : UInt8) ∉ str "# TYPE " ∧ (10 : UInt8) ∉ str "# HELP " ∧
      (10 : UInt8) ∉ str "# UNIT " ∧ (10 : UInt8) ∉ str " " := by decide
  obtain ⟨htype, hhelp, hunit, hblank⟩ := hkind
  cases line with
  | type name t =>
    cases ht
    have hword : (10 : UInt8) ∉ metricTypeToString t := by cases t <;> decide
    refine ⟨_, rfl, ?_, rfl⟩
    simp [htype, hblank, hword, unbroken_of_chars h]
  | help name d =>
    cases ht
    have hword := escape_unbroken d
    refine ⟨_, rfl, ?_, rfl⟩
    simp [hhelp, hblank, hword, unbroken_of_chars h, renderMetricComment, renderEscaped_eq]
  | unit name u =>
    cases ht
    have hword := escape_unbroken u
    refine ⟨_, rfl, ?_, rfl⟩
    simp [hunit, hblank, hword, unbroken_of_chars h, renderMetricComment, renderEscaped_eq]
  | sample name suffix labels value time =>
    obtain ⟨hname, ⟨list, extra, rfl⟩, hvalue, htime⟩ := h
    simp only [Line.text, bind, Except.bind, pure, Except.pure] at ht
    split at ht
    · cases ht
    · rename_i v
      split at ht
      · cases ht
      · rename_i t
        cases ht
        have hv : Plain v := hvalue v rfl
        have ht : Plain t := htime t rfl
        have hread := readSample_rendered hname list extra hv ht
        have hspace : str " " = [32] := rfl
        have hbody : name ++ suffix ++ renderAttributes list extra ++ str " " ++ v ++ str " " ++ t =
            name ++ suffix ++ (renderAttributes list extra ++ 32 :: (v ++ 32 :: t)) := by
          simp [hspace]
        refine ⟨_, rfl, ?_, list, extra, v, t, rfl, rfl, rfl, hbody ▸ hread⟩
        rw [hbody]
        simp only [List.mem_append, List.mem_cons, not_or]
        exact ⟨by simpa using unbroken_of_chars hname, renderAttributes_unbroken list extra,
          by decide, unbroken_of_plain hv, by decide, unbroken_of_plain ht⟩

/-- The output of a collection, cut at its line breaks, has one piece for each line, which
reads as that line, and an empty one after the last. -/
theorem collection_read_back {points : List (MetricPointTimestamp fmt)} {text : Str}
    (h : collectLk now start points = .ok lines) (ht : outputText lines = .ok text) :
    ∃ bodies, text.splitOn 10 = bodies ++ [[]] ∧
      List.Forall₂ (fun line body => line.ReadsAs fmt body) lines bodies := by
  have hsound := collectLk_sound h
  clear h
  induction lines generalizing text with
  | nil =>
    cases ht
    exact ⟨[], rfl, .nil⟩
  | cons line lines ih =>
    simp only [outputText, bind, Except.bind, pure, Except.pure] at ht
    split at ht
    · cases ht
    · rename_i first hfirst
      split at ht
      · cases ht
      · rename_i rest hrest
        cases ht
        obtain ⟨body, rfl, hunbroken, hreads⟩ := sound_text (hsound line List.mem_cons_self) hfirst
        obtain ⟨bodies, hsplit, hall⟩ :=
          ih hrest (fun l hl => hsound l (List.mem_cons_of_mem _ hl))
        refine ⟨body :: bodies, ?_, .cons hreads hall⟩
        rw [List.append_assoc, List.singleton_append,
          List.splitOn_append_cons_self_of_not_mem hunbroken, hsplit]
        rfl

end NostrServer.Telemetry
