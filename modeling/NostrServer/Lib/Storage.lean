namespace Docdb

/-- The number of a document; zero stands for none. -/
abbrev DocID := Nat

/-- What an observer is told: a document comes in, one goes out, or both. -/
structure Update (Doc : Type) where
  newDoc : Option Doc
  newDocId : DocID
  oldDoc : Option Doc
  oldDocId : DocID

abbrev Records (Doc : Type) := List (DocID × Doc)

def Records.find (rs : Records Doc) (id : DocID) : Option Doc :=
  (rs.find? (fun r => r.1 == id)).map Prod.snd

/-- A unique index row of `d` is owned by a document other than `old`. -/
def Taken (keys : Doc → List Key) (rs : Records Doc) (d : Doc) (old : DocID) : Prop :=
  ∃ k ∈ keys d, ∃ r ∈ rs, r.1 ≠ old ∧ k ∈ keys r.2

/-- No key of a unique index belongs to two documents. -/
def Unique (keys : Doc → List Key) (rs : Records Doc) : Prop :=
  ∀ r ∈ rs, ∀ r' ∈ rs, ∀ k ∈ keys r.2, k ∈ keys r'.2 → r.1 = r'.1

theorem not_taken {keys : Doc → List Key} {rs : Records Doc} (h : ¬ Taken keys rs d old)
    (hr : r ∈ rs) (hne : r.1 ≠ old) :
    ∀ k ∈ keys d, k ∉ keys r.2 :=
  fun k hk hk' => h ⟨k, hk, r, hr, hne, hk'⟩

/-- A document that comes in with no key of those that stay leaves the indexes unique. -/
theorem Unique.joined {keys : Doc → List Key} {rs rs' : Records Doc} {id : DocID}
    (hu : Unique keys rs) (h : ∀ r ∈ rs', r = (id, d) ∨ (r ∈ rs ∧ ∀ k ∈ keys d, k ∉ keys r.2)) :
    Unique keys rs' := by
  intro r hr r' hr' k hk hk'
  rcases h r hr with rfl | ⟨hr, hno⟩ <;> rcases h r' hr' with rfl | ⟨hr', hno'⟩
  · rfl
  · exact absurd hk' (hno' k hk)
  · exact absurd hk (hno k hk')
  · exact hu r hr r' hr' k hk hk'

theorem Unique.subset {keys : Doc → List Key} {rs rs' : Records Doc} (hu : Unique keys rs)
    (h : ∀ r ∈ rs', r ∈ rs) :
    Unique keys rs' :=
  fun r hr r' hr' => hu r (h r hr) r' (h r' hr')

/-- The storage with its unique indexes (`keys`) and the observer that names the
records each update deletes besides. A rejected `put` is a duplicate key. -/
structure Storage (Doc Key : Type) (keys : Doc → List Key)
    (observer : Update Doc → List DocID) where
  State : Type
  empty : State
  records : State → Records Doc
  rev : State → DocID
  put : State → Doc → DocID → Option (DocID × State)
  erase : State → DocID → State
  records_empty : records empty = []
  ids_nodup : ∀ s, ((records s).map Prod.fst).Nodup
  ids_bound : ∀ s, ∀ r ∈ records s, 0 < r.1 ∧ r.1 ≤ rev s
  put_records : ∀ s d old id s', put s d old = some (id, s') → rev s < id ∧ id ≤ rev s' ∧
    ∀ r, r ∈ records s' ↔ r = (id, d) ∨
      (r ∈ records s ∧ r.1 ∉ observer ⟨some d, id, (records s).find old, old⟩)
  put_rejected : ∀ s d old, put s d old = none ↔ Taken keys (records s) d old
  erase_records : ∀ s i, rev s ≤ rev (erase s i) ∧ ∃ id, ∀ r, r ∈ records (erase s i) ↔
    r ∈ records s ∧ r.1 ∉ observer ⟨none, id, (records s).find i, i⟩

/-- The observer deletes exactly the document an update takes out. -/
def Compacts (observer : Update Doc → List DocID) : Prop :=
  ∀ up, observer up = if up.oldDoc.isSome then [up.oldDocId] else []

theorem find_eq_some {rs : Records Doc} {id : DocID} (hn : (rs.map Prod.fst).Nodup) :
    rs.find id = some d ↔ (id, d) ∈ rs := by
  constructor
  · intro h
    obtain ⟨r, hr, rfl⟩ := Option.map_eq_some_iff.mp h
    have hid : r.1 = id := by simpa using List.find?_some hr
    exact hid ▸ List.mem_of_find?_eq_some hr
  · intro h
    induction rs with
    | nil => cases h
    | cons r rs ih =>
      simp only [List.map_cons, List.nodup_cons] at hn
      rcases List.mem_cons.mp h with rfl | hm
      · simp [Records.find]
      · have hne : r.1 ≠ id := fun he => hn.1 (he ▸ List.mem_map.mpr ⟨_, hm, rfl⟩)
        simpa [Records.find, hne] using ih hn.2 hm

theorem ids_nil : (([] : Records Doc).map Prod.fst).Nodup := List.nodup_nil

/-- A document is known by its number. -/
theorem same_record {rs : Records Doc} (hn : (rs.map Prod.fst).Nodup) (hr : r ∈ rs) (hr' : r' ∈ rs)
    (he : r.1 = r'.1) : r = r' := by
  have h := (find_eq_some (d := r.2) hn).mpr hr
  have h' := (find_eq_some (d := r'.2) hn).mpr hr'
  rw [he, h'] at h
  exact Prod.ext he (Option.some.inj h).symm

/-- A document and the others. -/
theorem records_split (rs : Records Doc) (hn : (rs.map Prod.fst).Nodup) (old : DocID) :
    rs.Perm (((rs.find old).toList.map (fun d => (old, d))) ++ rs.filter (fun r => r.1 ≠ old)) := by
  induction rs with
  | nil => simp [Records.find]
  | cons r rs ih =>
    simp only [List.map_cons, List.nodup_cons] at hn
    by_cases h : r.1 = old
    · have hothers : rs.filter (fun r => r.1 ≠ old) = rs := by
        apply List.filter_eq_self.mpr
        intro q hq
        have : q.1 ≠ old := fun he => hn.1 (h ▸ he ▸ List.mem_map.mpr ⟨q, hq, rfl⟩)
        simpa using this
      have hf : Records.find (r :: rs) old = some r.2 := by simp [Records.find, h]
      subst old
      rw [hf, List.filter_cons, hothers]
      simp
    · have hf : Records.find (r :: rs) old = Records.find rs old := by simp [Records.find, h]
      rw [hf, List.filter_cons]
      simp only [ne_eq, h, not_false_eq_true, decide_true, ↓reduceIte]
      exact (List.Perm.cons r (ih hn.2)).trans List.perm_middle.symm

section Compacting
variable {keys : Doc → List Key} {observer : Update Doc → List DocID}
variable (db : Storage Doc Key keys observer) {id : DocID}

theorem observer_iff (hc : Compacts observer) (s : db.State) (up : Update Doc)
    (hup : up.oldDoc = (db.records s).find up.oldDocId) (hr : r ∈ db.records s) :
    r.1 ∉ observer up ↔ r.1 ≠ up.oldDocId := by
  rw [hc up]
  constructor
  · intro h he
    have hf : up.oldDoc = some r.2 := hup.trans ((find_eq_some (db.ids_nodup s)).mpr (he ▸ hr))
    simp [hf, he] at h
  · intro hne
    split <;> simp [hne]

/-- A stored document takes a new number and the place of the one it replaces. -/
theorem put_mem (hc : Compacts observer) (h : db.put s d old = some (id, s')) (r : DocID × Doc) :
    r ∈ db.records s' ↔ r = (id, d) ∨ (r ∈ db.records s ∧ r.1 ≠ old) := by
  refine ((db.put_records s d old id s' h).2.2 r).trans (or_congr_right ?_)
  exact and_congr_right (fun hm => observer_iff db hc s _ rfl hm)

theorem erase_mem (hc : Compacts observer) (s : db.State) (i : DocID) (r : DocID × Doc) :
    r ∈ db.records (db.erase s i) ↔ r ∈ db.records s ∧ r.1 ≠ i := by
  obtain ⟨_, id, hr⟩ := db.erase_records s i
  exact (hr r).trans (and_congr_right (fun hm => observer_iff db hc s _ rfl hm))

theorem nodup_of_ids {rs : Records Doc} (hn : (rs.map Prod.fst).Nodup) : rs.Nodup :=
  (List.pairwise_map.mp hn).imp (fun h he => h (congrArg Prod.fst he))

theorem put_perm (hc : Compacts observer) (h : db.put s d old = some (id, s')) :
    (db.records s').Perm ((id, d) :: (db.records s).filter (fun r => r.1 ≠ old)) := by
  refine (List.perm_ext_iff_of_nodup (nodup_of_ids (db.ids_nodup s')) ?_).mpr (fun r => ?_)
  · refine List.nodup_cons.mpr ⟨fun hm => ?_, (nodup_of_ids (db.ids_nodup s)).filter _⟩
    have hle := (db.ids_bound s _ (List.mem_filter.mp hm).1).2
    exact Nat.lt_irrefl _ (Nat.lt_of_lt_of_le (db.put_records s d old id s' h).1 hle)
  · rw [put_mem db hc h r]
    simp

theorem erase_perm (hc : Compacts observer) (s : db.State) (i : DocID) :
    (db.records (db.erase s i)).Perm ((db.records s).filter (fun r => r.1 ≠ i)) := by
  refine (List.perm_ext_iff_of_nodup (nodup_of_ids (db.ids_nodup _)) ?_).mpr (fun r => ?_)
  · exact (nodup_of_ids (db.ids_nodup s)).filter _
  · rw [erase_mem db hc s i r]
    simp

theorem put_free (h : db.put s d old = some p) : ¬ Taken keys (db.records s) d old := by
  intro ht
  rw [(db.put_rejected s d old).mpr ht] at h
  cases h

end Compacting

/-- The plain storage: a list of numbered documents and the last number given. -/
structure Table (Doc : Type) where
  records : Records Doc
  rev : DocID
  nodup : (records.map Prod.fst).Nodup
  bound : ∀ r ∈ records, 0 < r.1 ∧ r.1 ≤ rev

def Table.without (t : Table Doc) (gone : List DocID) : Table Doc where
  records := t.records.filter (fun r => r.1 ∉ gone)
  rev := t.rev
  nodup := t.nodup.sublist ((List.filter_sublist).map Prod.fst)
  bound r hr := t.bound r (List.mem_filter.mp hr).1

def Table.add (t : Table Doc) (d : Doc) : Table Doc where
  records := (t.rev + 1, d) :: t.records
  rev := t.rev + 1
  nodup := by
    refine List.nodup_cons.mpr ⟨?_, t.nodup⟩
    intro h
    obtain ⟨r, hr, he⟩ := List.mem_map.mp h
    exact Nat.not_succ_le_self t.rev (Nat.le_trans (Nat.le_of_eq he.symm) (t.bound r hr).2)
  bound r hr := by
    rcases List.mem_cons.mp hr with rfl | hr
    · exact ⟨Nat.succ_pos _, Nat.le_refl _⟩
    · exact ⟨(t.bound r hr).1, Nat.le_succ_of_le (t.bound r hr).2⟩

variable [DecidableEq Key] in
instance (keys : Doc → List Key) (rs : Records Doc) (d : Doc) (old : DocID) :
    Decidable (Taken keys rs d old) := by
  unfold Taken
  infer_instance

def plainStorage (Doc Key : Type) [DecidableEq Key] (keys : Doc → List Key)
    (observer : Update Doc → List DocID) : Storage Doc Key keys observer where
  State := Table Doc
  empty := ⟨[], 0, ids_nil, by simp⟩
  records := Table.records
  rev := Table.rev
  put t d old :=
    if Taken keys t.records d old then none
    else some (t.rev + 1, (t.without (observer ⟨some d, t.rev + 1, t.records.find old, old⟩)).add d)
  erase t i := t.without (observer ⟨none, t.rev, t.records.find i, i⟩)
  records_empty := rfl
  ids_nodup := Table.nodup
  ids_bound := Table.bound
  put_records t d old id t' h := by
    split at h
    · cases h
    · cases h
      refine ⟨Nat.lt_succ_self _, Nat.le_refl _, ?_⟩
      simp [Table.add, Table.without]
  put_rejected t d old := by
    split <;> simp_all
  erase_records t i := ⟨Nat.le_refl _, t.rev, by simp [Table.without]⟩

end Docdb
