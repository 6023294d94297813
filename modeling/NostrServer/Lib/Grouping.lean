import Mathlib.Data.List.Induction

namespace Grouping

inductive Mark (ν : Type) where
  | header (f : ν)
  | entry (f : ν)
  | other
deriving DecidableEq

variable {ν : Type}

def lastEntry (l : List (Mark ν)) : Option ν :=
  (l.filterMap (fun m => match m with
    | .entry f => some f
    | _ => none)).getLast?

theorem lastEntry_append (l l' : List (Mark ν)) :
    lastEntry (l ++ l') = (lastEntry l').or (lastEntry l) := by
  simp [lastEntry, List.getLast?_append]

theorem lastEntry_entry (l : List (Mark ν)) (f : ν) : lastEntry (l ++ [.entry f]) = some f := by
  simp [lastEntry]

theorem lastEntry_header (l : List (Mark ν)) (f : ν) :
    lastEntry (l ++ [.header f]) = lastEntry l := by
  simp [lastEntry]

theorem lastEntry_other (l : List (Mark ν)) : lastEntry (l ++ [.other]) = lastEntry l := by
  simp [lastEntry]

theorem lastEntry_replicate (l : List (Mark ν)) (f : ν) (k : Nat) :
    lastEntry (l ++ List.replicate (k + 1) (.entry f)) = some f := by
  rw [List.replicate_succ', ← List.append_assoc, lastEntry_entry]

/-- After the last entry come no others. -/
theorem lastEntry_split {l : List (Mark ν)} (h : .entry f ∈ l) :
    ∃ g a b, lastEntry l = some g ∧ l = a ++ .entry g :: b ∧ ∀ g', .entry g' ∉ b := by
  induction l using List.reverseRecOn with
  | nil => cases h
  | append_singleton l m ih =>
    cases m with
    | entry g => exact ⟨g, l, [], lastEntry_entry l g, rfl, by simp⟩
    | header g =>
      obtain ⟨g', a, b, hlast, rfl, hnone⟩ := ih (by simpa using h)
      exact ⟨g', a, b ++ [.header g], by rw [lastEntry_header, hlast], by simp,
        by simpa using hnone⟩
    | other =>
      obtain ⟨g', a, b, hlast, rfl, hnone⟩ := ih (by simpa using h)
      exact ⟨g', a, b ++ [.other], by rw [lastEntry_other, hlast], by simp, by simpa using hnone⟩

section
variable [DecidableEq ν]

/-- Every family in the text has one header, its entries come after it, and no entry of
another family comes between them. -/
structure Once (l : List (Mark ν)) : Prop where
  one : ∀ f, .header f ∈ l ∨ .entry f ∈ l → l.count (.header f) = 1
  before : ∀ a b f, l = a ++ .entry f :: b → .header f ∈ a
  together : ∀ a b c f g, l = a ++ .entry f :: (b ++ .entry f :: c) → .entry g ∈ b → g = f

theorem snoc_split {l a b : List α} : l ++ [x] = a ++ y :: b ↔
    (b = [] ∧ a = l ∧ y = x) ∨ ∃ b', b = b' ++ [x] ∧ l = a ++ y :: b' := by
  rcases List.eq_nil_or_concat b with rfl | ⟨b, z, rfl⟩
  · constructor
    · intro h
      obtain ⟨rfl, hx⟩ := List.append_inj' h rfl
      exact Or.inl ⟨rfl, rfl, (List.singleton_inj.mp hx).symm⟩
    · rintro (⟨-, rfl, rfl⟩ | ⟨b', hb, -⟩)
      · rfl
      · simp at hb
  · have hassoc : a ++ y :: b.concat z = (a ++ y :: b) ++ [z] := by simp
    rw [hassoc]
    constructor
    · intro h
      obtain ⟨rfl, hx⟩ := List.append_inj' h rfl
      exact Or.inr ⟨b, by rw [List.singleton_inj.mp hx, List.concat_eq_append], rfl⟩
    · rintro (⟨hb, -⟩ | ⟨b', hb, rfl⟩)
      · simp at hb
      · rw [List.concat_eq_append] at hb
        obtain ⟨rfl, hz⟩ := List.append_inj' hb rfl
        rw [List.singleton_inj.mp hz]

theorem once_nil : Once ([] : List (Mark ν)) :=
  ⟨by simp, by simp, by simp⟩

/-- What was written already is in order. -/
theorem Once.init {l : List (Mark ν)} (h : Once (l ++ [m])) : Once l := by
  have hbefore (a b : List (Mark ν)) (f : ν) (he : l = a ++ .entry f :: b) : .header f ∈ a :=
    h.before a (b ++ [m]) f (by simp [he])
  refine ⟨?_, hbefore, ?_⟩
  · intro f hf
    have hmem : .header f ∈ l := by
      rcases hf with hf | hf
      · exact hf
      · obtain ⟨a, b, rfl⟩ := List.append_of_mem hf
        exact List.mem_append_left _ (hbefore a b f rfl)
    have hone := h.one f (Or.inl (List.mem_append_left _ hmem))
    rw [List.count_append] at hone
    have hpos := List.count_pos_iff.mpr hmem
    omega
  · intro a b c f g he
    exact h.together a b (c ++ [m]) f g (by simp [he])

theorem once_snoc_header {l : List (Mark ν)} :
    Once (l ++ [.header f]) ↔ Once l ∧ .header f ∉ l := by
  constructor
  · intro h
    refine ⟨h.init, ?_⟩
    intro hmem
    have hone := h.one f (Or.inl (by simp))
    have hpos := List.count_pos_iff.mpr hmem
    simp only [List.count_append, List.count_singleton_self] at hone
    omega
  · rintro ⟨h, hnew⟩
    refine ⟨?_, ?_, ?_⟩
    · intro g hg
      by_cases hgf : g = f
      · simp [hgf, List.count_eq_zero.mpr hnew]
      · have hold : .header g ∈ l ∨ .entry g ∈ l := by simpa [hgf] using hg
        have hother : [Mark.header f].count (.header g) = 0 := by simp [Ne.symm hgf]
        rw [List.count_append, hother, h.one g hold]
    · intro a b g he
      rcases snoc_split.mp he with ⟨-, -, hm⟩ | ⟨b', -, he⟩
      · cases hm
      · exact h.before a b' g he
    · intro a b c g g' he hg'
      rw [← List.cons_append, ← List.append_assoc] at he
      rcases snoc_split.mp he with ⟨-, -, hm⟩ | ⟨c', -, he⟩
      · cases hm
      · exact h.together a b c' g g' (by simp [he]) hg'

theorem once_snoc_other {l : List (Mark ν)} : Once (l ++ [.other]) ↔ Once l := by
  refine ⟨Once.init, fun h => ⟨?_, ?_, ?_⟩⟩
  · intro f hf
    have hother : [(Mark.other : Mark ν)].count (.header f) = 0 := by simp
    rw [List.count_append, hother, h.one f (by simpa using hf)]
  · intro a b f he
    rcases snoc_split.mp he with ⟨-, -, hm⟩ | ⟨b', -, he⟩
    · cases hm
    · exact h.before a b' f he
  · intro a b c f g he hg
    rw [← List.cons_append, ← List.append_assoc] at he
    rcases snoc_split.mp he with ⟨-, -, hm⟩ | ⟨c', -, he⟩
    · cases hm
    · exact h.together a b c' f g (by simp [he]) hg

/-- An entry fits at the end when its family is announced, and is new or the one before. -/
theorem once_snoc_entry {l : List (Mark ν)} : Once (l ++ [.entry f]) ↔
    Once l ∧ .header f ∈ l ∧ (.entry f ∈ l → lastEntry l = some f) := by
  constructor
  · intro h
    refine ⟨h.init, h.before l [] f rfl, ?_⟩
    intro hmem
    obtain ⟨g, a, b, hlast, rfl, hnone⟩ := lastEntry_split hmem
    rw [hlast, Option.some.injEq]
    rcases List.mem_append.mp hmem with hmem | hmem
    · obtain ⟨a₁, a₂, rfl⟩ := List.append_of_mem hmem
      exact h.together a₁ (a₂ ++ .entry g :: b) [] f g (by simp) (by simp)
    · rcases List.mem_cons.mp hmem with he | hmem
      · cases he
        rfl
      · exact absurd hmem (hnone f)
  · rintro ⟨h, hheader, hentry⟩
    refine ⟨?_, ?_, ?_⟩
    · intro g hg
      have hold : .header g ∈ l ∨ .entry g ∈ l := by
        rcases hg with hg | hg
        · exact Or.inl (by simpa using hg)
        · rcases List.mem_append.mp hg with hg | hg
          · exact Or.inr hg
          · cases List.mem_singleton.mp hg
            exact Or.inl hheader
      have hother : [Mark.entry f].count (.header g) = 0 := by simp
      rw [List.count_append, hother, h.one g hold]
    · intro a b g he
      rcases snoc_split.mp he with ⟨-, rfl, hm⟩ | ⟨b', -, he⟩
      · cases hm
        exact hheader
      · exact h.before a b' g he
    · intro a b c g g' he hg'
      rw [← List.cons_append, ← List.append_assoc] at he
      rcases snoc_split.mp he with ⟨-, hl, hm⟩ | ⟨c', -, he⟩
      · cases hm
        -- the last entry before is of the family, and stands at or after the one in between
        obtain ⟨last, b₁, b₂, hlast, rfl, hnone⟩ := lastEntry_split hg'
        have hf := hentry (by simp [← hl])
        rw [← hl, List.append_cons, lastEntry_append, hlast] at hf
        obtain rfl : last = f := Option.some.inj hf
        rcases List.mem_append.mp hg' with hin | hin
        · exact h.together a b₁ b₂ last g' (by simp [← hl]) hin
        · rcases List.mem_cons.mp hin with heq | hin
          · cases heq
            rfl
          · exact absurd hin (hnone g')
      · exact h.together a b c' g g' (by simp [he]) hg'

theorem once_others {l : List (Mark ν)} (k : Nat) :
    Once (l ++ List.replicate k .other) ↔ Once l := by
  induction k with
  | zero => simp
  | succ k ih => rw [List.replicate_succ', ← List.append_assoc, once_snoc_other, ih]

/-- Of entries of one family only the first has to fit. -/
theorem once_entries {l : List (Mark ν)} (k : Nat) : Once (l ++ List.replicate k (.entry f)) ↔
    Once l ∧ (0 < k → .header f ∈ l ∧ (.entry f ∈ l → lastEntry l = some f)) := by
  induction k with
  | zero => simp
  | succ k ih =>
    rw [List.replicate_succ', ← List.append_assoc, once_snoc_entry, ih]
    cases k with
    | zero => simp
    | succ k =>
      have hlast := lastEntry_replicate l f k
      simp only [Nat.zero_lt_succ, true_imp_iff]
      constructor
      · exact And.left
      · intro h
        exact ⟨h, List.mem_append_left _ h.2.1, fun _ => hlast⟩

end

/-- How a writer sees its points: under a key, with a name, and with how much it writes. The
first point is compared with the key `first`. -/
structure Writer (τ κ ν : Type) where
  key : τ → κ
  name : τ → ν
  notes : τ → Nat
  entries : τ → Nat
  first : κ

namespace Writer

variable {τ κ : Type} (w : Writer τ κ ν)

def lastKey (before : List τ) : κ :=
  match before.getLast? with
  | some p => w.key p
  | none => w.first

def Starts (before : List τ) (p : τ) : Prop := w.lastKey before ≠ w.key p

def Announced (points : List τ) (f : ν) : Prop :=
  ∃ before p after, points = before ++ p :: after ∧ w.Starts before p ∧ w.name p = f

def printing (points : List τ) : List τ := points.filter (fun p => decide (0 < w.entries p))

/-- A point fits after others: where the key changes its name is new among the ones that
started; what it writes has a name that is announced; and that is either new among the names
that were written or the last of them. -/
structure Fits (before : List τ) (p : τ) : Prop where
  fresh : w.Starts before p → ¬ w.Announced before (w.name p)
  announced : 0 < w.entries p → w.Starts before p ∨ w.Announced before (w.name p)
  adjoining : 0 < w.entries p → ∀ q ∈ w.printing before, w.name q = w.name p →
    ∃ last, (w.printing before).getLast? = some last ∧ w.name last = w.name p

theorem lastKey_snoc (points : List τ) (p : τ) : w.lastKey (points ++ [p]) = w.key p := by
  simp [lastKey]

theorem announced_snoc (points : List τ) (p : τ) (f : ν) : w.Announced (points ++ [p]) f ↔
    w.Announced points f ∨ (w.Starts points p ∧ w.name p = f) := by
  constructor
  · rintro ⟨before, q, after, he, hstarts, hname⟩
    rcases snoc_split.mp he with ⟨-, rfl, rfl⟩ | ⟨after', -, rfl⟩
    · exact Or.inr ⟨hstarts, hname⟩
    · exact Or.inl ⟨before, q, after', rfl, hstarts, hname⟩
  · rintro (⟨before, q, after, rfl, hstarts, hname⟩ | ⟨hstarts, hname⟩)
    · exact ⟨before, q, after ++ [p], by simp, hstarts, hname⟩
    · exact ⟨points, p, [], rfl, hstarts, hname⟩

theorem printing_snoc (points : List τ) (p : τ) : w.printing (points ++ [p]) =
    w.printing points ++ if 0 < w.entries p then [p] else [] := by
  by_cases h : 0 < w.entries p <;> simp [printing, List.filter_append, h]

/-- Names follow the keys: where the key changes the name is new, and elsewhere it is that
of the point before. -/
def NamedByRuns (points : List τ) : Prop :=
  ∀ before p after, points = before ++ p :: after →
    (w.Starts before p → ∀ q ∈ before, w.name q ≠ w.name p) ∧
    (¬ w.Starts before p → ∃ last, before.getLast? = some last ∧ w.name last = w.name p)

theorem NamedByRuns.announced (h : w.NamedByRuns points) (hq : q ∈ points) :
    w.Announced points (w.name q) := by
  obtain ⟨before, after, rfl⟩ := List.append_of_mem hq
  induction before using List.reverseRecOn generalizing q after with
  | nil =>
    by_cases hs : w.Starts [] q
    · exact ⟨[], q, after, rfl, hs, rfl⟩
    · obtain ⟨last, hlast, -⟩ := (h [] q after rfl).2 hs
      cases hlast
  | append_singleton before p ih =>
    by_cases hs : w.Starts (before ++ [p]) q
    · exact ⟨before ++ [p], q, after, rfl, hs, rfl⟩
    · obtain ⟨last, hlast, hname⟩ := (h _ q after rfl).2 hs
      obtain rfl : p = last := by simpa using hlast
      rw [← hname, ← List.append_cons]
      exact ih (q :: after) (List.append_cons before p (q :: after) ▸ h) (by simp)

/-- Of points that all write something, each fits when names follow the keys. -/
theorem fits_iff_namedByRuns (hall : ∀ p ∈ points, 0 < w.entries p) :
    (∀ before p after, points = before ++ p :: after → w.Fits before p) ↔
      w.NamedByRuns points := by
  constructor
  · intro h before p after he
    obtain ⟨hfresh, hannounced, hadjoining⟩ := h before p after he
    have hpos : 0 < w.entries p := hall p (by simp [he])
    have hprint : w.printing before = before := by
      apply List.filter_eq_self.mpr
      intro q hq
      simpa using hall q (by simp [he, hq])
    rw [hprint] at hadjoining
    refine ⟨?_, ?_⟩
    · intro hs q hq hname
      -- a point that does not start has a name that one before it started with
      obtain ⟨b, a, rfl⟩ := List.append_of_mem hq
      have hfit := h b q (a ++ p :: after) (by simp [he])
      apply hfresh hs
      rcases hfit.announced (hall q (by simp [he])) with hqs | ⟨b', s, a', rfl, hss, hsname⟩
      · exact ⟨b, q, a, rfl, hqs, hname⟩
      · exact ⟨b', s, a' ++ q :: a, by simp, hss, hsname.trans hname⟩
    · intro hs
      obtain ⟨b, s, a, rfl, -, hname⟩ := (hannounced hpos).resolve_left hs
      exact hadjoining hpos s (by simp) hname
  · intro h before p after he
    obtain ⟨hnew, hsame⟩ := h before p after he
    have hprint : w.printing before = before := by
      apply List.filter_eq_self.mpr
      intro q hq
      simpa using hall q (by simp [he, hq])
    have hbefore : w.NamedByRuns before := by
      intro b q a hb
      exact h b q (a ++ p :: after) (by simp [he, hb])
    refine ⟨?_, ?_, ?_⟩
    · rintro hs ⟨b, q, a, rfl, -, hname⟩
      exact hnew hs q (by simp) hname
    · intro _
      by_cases hs : w.Starts before p
      · exact Or.inl hs
      · obtain ⟨last, hlast, hname⟩ := hsame hs
        exact Or.inr (hname ▸ hbefore.announced w (List.mem_of_getLast? hlast))
    · intro _ q hq hname
      rw [hprint] at hq ⊢
      by_cases hs : w.Starts before p
      · exact absurd hname (hnew hs q hq)
      · exact hsame hs

/-- Where names follow the keys, two points have one name exactly when no key between them and
of the later one is another than that of the earlier one. -/
theorem NamedByRuns.name_eq_iff (h : w.NamedByRuns points) (a : List τ) (p : τ) (b : List τ) :
    ∀ q c, points = a ++ p :: (b ++ q :: c) →
      (w.name p = w.name q ↔ ∀ r ∈ b ++ [q], w.key r = w.key p) := by
  induction b using List.reverseRecOn with
  | nil =>
    intro q c he
    obtain ⟨hnew, hsame⟩ := h (a ++ [p]) q c (by simp [he])
    rw [Starts, lastKey_snoc] at hnew hsame
    by_cases hkey : w.key p = w.key q
    · obtain ⟨last, hlast, hname⟩ := hsame (not_not.mpr hkey)
      obtain rfl : p = last := by simpa using hlast
      simp [hname, hkey]
    · have hne := hnew hkey p (by simp)
      simp [hne, Ne.symm hkey]
  | append_singleton b r ih =>
    intro q c he
    obtain ⟨hnew, hsame⟩ := h (a ++ p :: (b ++ [r])) q c (by simp [he])
    have hlastKey : w.lastKey (a ++ p :: (b ++ [r])) = w.key r := by
      rw [← List.cons_append, ← List.append_assoc, lastKey_snoc]
    rw [Starts, hlastKey] at hnew hsame
    by_cases hkey : w.key r = w.key q
    · obtain ⟨last, hlast, hname⟩ := hsame (not_not.mpr hkey)
      rw [← List.cons_append, ← List.append_assoc, List.getLast?_concat] at hlast
      obtain rfl : r = last := Option.some.inj hlast
      have hprev := ih r (q :: c) (by simp [he])
      rw [← hname, hprev]
      constructor
      · intro hb x hx
        rcases List.mem_append.mp hx with hx | hx
        · exact hb x hx
        · rw [List.mem_singleton.mp hx, ← hkey]
          exact hb r (by simp)
      · intro hb x hx
        exact hb x (List.mem_append_left _ hx)
    · have hne := hnew hkey p (by simp)
      simp only [hne, false_iff]
      intro hb
      exact hkey ((hb r (by simp)).trans (hb q (by simp)).symm)

/-- Names follow the keys when the first key is not the one before all points, and two points
have one name exactly when no key between them and of the later one is another than that of
the earlier one. -/
theorem namedByRuns_iff (points : List τ) : w.NamedByRuns points ↔
    (∀ p after, points = p :: after → w.key p ≠ w.first) ∧
    ∀ a p b q c, points = a ++ p :: (b ++ q :: c) →
      (w.name p = w.name q ↔ ∀ r ∈ b ++ [q], w.key r = w.key p) := by
  constructor
  · intro h
    refine ⟨?_, fun a p b => h.name_eq_iff w a p b⟩
    rintro p after rfl hkey
    obtain ⟨last, hlast, -⟩ := (h [] p after rfl).2 (fun hs => hs hkey.symm)
    cases hlast
  · rintro ⟨hfirst, hpairs⟩ before p after he
    refine ⟨?_, ?_⟩
    · intro hs q hq hname
      obtain ⟨a, b, rfl⟩ := List.append_of_mem hq
      have hkeys := (hpairs a q b p after (by simp [he])).mp hname
      apply hs
      rw [hkeys p (by simp)]
      rcases List.eq_nil_or_concat b with rfl | ⟨b, r, rfl⟩
      · rw [lastKey_snoc]
      · rw [List.concat_eq_append, ← List.cons_append, ← List.append_assoc, lastKey_snoc]
        exact hkeys r (by simp)
    · intro hs
      rcases List.eq_nil_or_concat before with rfl | ⟨a, r, rfl⟩
      · exact absurd (not_not.mp hs).symm (hfirst p after he)
      · rw [List.concat_eq_append] at hs he ⊢
        rw [Starts, lastKey_snoc, not_not] at hs
        refine ⟨r, by simp, ?_⟩
        rw [hpairs a r [] p after (by simp [he])]
        simp [hs]

variable [DecidableEq κ]

def heading (prev : κ) (p : τ) : List (Mark ν) :=
  if prev = w.key p then [] else .header (w.name p) :: List.replicate (w.notes p) .other

def marks (prev : κ) : List τ → List (Mark ν)
  | [] => []
  | p :: points =>
    w.heading prev p ++ List.replicate (w.entries p) (.entry (w.name p)) ++ marks (w.key p) points

theorem marks_snoc (points : List τ) (p : τ) : w.marks w.first (points ++ [p]) =
    w.marks w.first points ++ w.heading (w.lastKey points) p ++
      List.replicate (w.entries p) (.entry (w.name p)) := by
  have hfrom (prev : κ) : w.marks prev (points ++ [p]) = w.marks prev points ++
      w.heading ((points.getLast?.map w.key).getD prev) p ++
        List.replicate (w.entries p) (.entry (w.name p)) := by
    induction points generalizing prev with
    | nil => simp [marks]
    | cons q points ih =>
      rw [List.cons_append, marks, ih, marks]
      cases points with
      | nil => simp
      | cons q' points => simp [List.getLast?_cons]
  have hlast : (points.getLast?.map w.key).getD w.first = w.lastKey points := by
    unfold lastKey
    cases points.getLast? <;> rfl
  rw [hfrom, hlast]

theorem header_mem (points : List τ) (f : ν) :
    .header f ∈ w.marks w.first points ↔ w.Announced points f := by
  induction points using List.reverseRecOn with
  | nil => simp [marks, Announced]
  | append_singleton points p ih =>
    rw [marks_snoc, announced_snoc, List.mem_append, List.mem_append, ih, heading, Starts]
    by_cases h : w.lastKey points = w.key p
    · simp [h]
    · simp [h, eq_comm]

theorem entry_mem (points : List τ) (f : ν) :
    .entry f ∈ w.marks w.first points ↔ ∃ q ∈ w.printing points, w.name q = f := by
  induction points using List.reverseRecOn with
  | nil => simp [marks, printing]
  | append_singleton points p ih =>
    have hheading : .entry f ∉ w.heading (w.lastKey points) p := by
      unfold heading
      split <;> simp
    rw [marks_snoc, printing_snoc, List.mem_append, List.mem_append, ih]
    by_cases h : 0 < w.entries p
    · simp [h, hheading, Nat.ne_of_gt h, or_and_right, exists_or, eq_comm]
    · simp [hheading, Nat.eq_zero_of_not_pos h]

theorem lastEntry_heading (l : List (Mark ν)) (prev : κ) (p : τ) :
    lastEntry (l ++ w.heading prev p) = lastEntry l := by
  unfold heading
  split
  · rw [List.append_nil]
  · rw [lastEntry_append]
    simp [lastEntry]

theorem lastEntry_marks (points : List τ) :
    lastEntry (w.marks w.first points) = (w.printing points).getLast?.map w.name := by
  induction points using List.reverseRecOn with
  | nil => rfl
  | append_singleton points p ih =>
    rw [marks_snoc, printing_snoc]
    cases hk : w.entries p with
    | zero => simp [lastEntry_heading, ih]
    | succ k =>
      rw [lastEntry_replicate]
      simp

variable [DecidableEq ν]

/-- The text announces every family once exactly when each point fits after those before. -/
theorem once_marks_iff (points : List τ) : Once (w.marks w.first points) ↔
    ∀ before p after, points = before ++ p :: after → w.Fits before p := by
  induction points using List.reverseRecOn with
  | nil => simp [marks, once_nil]
  | append_singleton points p ih =>
    have hsplits : (∀ before q after, points ++ [p] = before ++ q :: after → w.Fits before q) ↔
        (∀ before q after, points = before ++ q :: after → w.Fits before q) ∧ w.Fits points p := by
      constructor
      · intro h
        exact ⟨fun before q after he => h before q (after ++ [p]) (by simp [he]), h points p [] rfl⟩
      · rintro ⟨h, hlast⟩ before q after he
        rcases snoc_split.mp he with ⟨-, rfl, rfl⟩ | ⟨after', -, he⟩
        · exact hlast
        · exact h before q after' he
    have hheading : Once (w.marks w.first points ++ w.heading (w.lastKey points) p) ↔
        Once (w.marks w.first points) ∧ (w.Starts points p → ¬ w.Announced points (w.name p)) := by
      rw [heading, Starts, ← header_mem]
      by_cases h : w.lastKey points = w.key p
      · simp [h]
      · simp only [h, ↓reduceIte, ne_eq, not_false_eq_true, true_imp_iff]
        rw [List.append_cons, once_others, once_snoc_header]
    have hmem : .header (w.name p) ∈ w.marks w.first points ++ w.heading (w.lastKey points) p ↔
        w.Starts points p ∨ w.Announced points (w.name p) := by
      rw [List.mem_append, header_mem, heading, Starts, or_comm]
      by_cases h : w.lastKey points = w.key p <;> simp [h]
    have hentry : .entry (w.name p) ∈ w.marks w.first points ++ w.heading (w.lastKey points) p ↔
        ∃ q ∈ w.printing points, w.name q = w.name p := by
      rw [List.mem_append, entry_mem, heading]
      by_cases h : w.lastKey points = w.key p <;> simp [h]
    rw [hsplits, ← ih, marks_snoc, once_entries, hheading, hmem, hentry, lastEntry_heading,
      lastEntry_marks]
    simp only [Option.map_eq_some_iff, and_assoc]
    apply and_congr_right
    intro _
    constructor
    · rintro ⟨hfresh, hentries⟩
      exact ⟨hfresh, fun h => (hentries h).1, fun h q hq hname => (hentries h).2 ⟨q, hq, hname⟩⟩
    · rintro ⟨hfresh, hannounced, hadjoining⟩
      exact ⟨hfresh, fun h => ⟨hannounced h, fun ⟨q, hq, hname⟩ => hadjoining h q hq hname⟩⟩

end Writer

end Grouping
