import Mathlib.Data.List.Induction
import NostrServer.Lib.Storage

namespace Docdb

/-- A row of a multi index: documents share keys, but no document has two rows of one key. -/
structure Entry (κ ν : Type) where
  key : κ
  doc : DocID
  value : ν
deriving DecidableEq

/-- What a program may rely on in a multi index: a row that is put takes the place of that of
its key and document, and a row is erased by these two. How rows are kept is left open. -/
structure MultiIndex (κ ν : Type) where
  State : Type
  empty : State
  rows : State → List (Entry κ ν)
  put : State → Entry κ ν → State
  erase : State → κ → DocID → State
  rows_empty : rows empty = []
  put_rows : ∀ s e r, r ∈ rows (put s e) ↔
    r = e ∨ (r ∈ rows s ∧ ¬ (r.key = e.key ∧ r.doc = e.doc))
  erase_rows : ∀ s k id r, r ∈ rows (erase s k id) ↔ r ∈ rows s ∧ ¬ (r.key = k ∧ r.doc = id)

/-- A multi index that meets the interface. -/
def plainIndex (κ ν : Type) [DecidableEq κ] : MultiIndex κ ν where
  State := List (Entry κ ν)
  empty := []
  rows := id
  put rows e := e :: rows.filter (fun r => ¬ (r.key = e.key ∧ r.doc = e.doc))
  erase rows k id := rows.filter (fun r => ¬ (r.key = k ∧ r.doc = id))
  rows_empty := rfl
  put_rows _ _ _ := by simp only [id_eq, List.mem_cons, List.mem_filter, decide_eq_true_eq]
  erase_rows _ _ _ _ := by simp only [id_eq, List.mem_filter, decide_eq_true_eq]

/-- The rows are those of the stored documents. -/
def Mirrors (emit : Doc → List (κ × ν)) (rows : List (Entry κ ν)) (rs : Records Doc) : Prop :=
  ∀ e, e ∈ rows ↔ ∃ d, (e.doc, d) ∈ rs ∧ (e.key, e.value) ∈ emit d

def OneValued (emit : Doc → List (κ × ν)) (d : Doc) : Prop :=
  ∀ p ∈ emit d, ∀ q ∈ emit d, p.1 = q.1 → p.2 = q.2

namespace MultiIndex
variable {κ ν Doc : Type} (ix : MultiIndex κ ν)

/-- The rows without those of a document of which the function emits `out`. -/
def takeOut (out : Doc → List (κ × ν)) (old : Option Doc) (id : DocID) (s : ix.State) : ix.State :=
  match old with
  | some d => (out d).foldl (fun s kv => ix.erase s kv.1 id) s
  | none => s

/-- The rows and those of a document of which the function emits `into`. -/
def bringIn (into : Doc → List (κ × ν)) (new : Option Doc) (id : DocID) (s : ix.State) : ix.State :=
  match new with
  | some d => (into d).foldl (fun s kv => ix.put s ⟨kv.1, id, kv.2⟩) s
  | none => s

/-- The index's share of an update. -/
def reindex (out into : Doc → List (κ × ν)) (up : Update Doc) (s : ix.State) : ix.State :=
  ix.bringIn into up.newDoc up.newDocId (ix.takeOut out up.oldDoc up.oldDocId s)

/-- The rows of a document go by their keys. -/
theorem mem_erased {s : ix.State} {id : DocID} {kvs : List (κ × ν)} {r : Entry κ ν} :
    r ∈ ix.rows (kvs.foldl (fun s kv => ix.erase s kv.1 id) s) ↔
      r ∈ ix.rows s ∧ ∀ kv ∈ kvs, ¬ (r.key = kv.1 ∧ r.doc = id) := by
  induction kvs using List.reverseRecOn with
  | nil => simp
  | append_singleton kvs kv ih =>
    rw [List.foldl_append, List.foldl_cons, List.foldl_nil, ix.erase_rows, ih, and_assoc]
    simp [or_imp, forall_and]

/-- The rows of a document that had none come in with its number. -/
theorem mem_entered {s : ix.State} {id : DocID} (hnew : ∀ r ∈ ix.rows s, r.doc ≠ id)
    {kvs : List (κ × ν)} (hone : ∀ p ∈ kvs, ∀ q ∈ kvs, p.1 = q.1 → p.2 = q.2)
    {r : Entry κ ν} :
    r ∈ ix.rows (kvs.foldl (fun s kv => ix.put s ⟨kv.1, id, kv.2⟩) s) ↔
      r ∈ ix.rows s ∨ (r.doc = id ∧ (r.key, r.value) ∈ kvs) := by
  induction kvs using List.reverseRecOn with
  | nil => simp
  | append_singleton kvs kv ih =>
    obtain ⟨k, v⟩ := kv
    have hone' : ∀ p ∈ kvs, ∀ q ∈ kvs, p.1 = q.1 → p.2 = q.2 :=
      fun p hp q hq => hone p (List.mem_append_left _ hp) q (List.mem_append_left _ hq)
    rw [List.foldl_append, List.foldl_cons, List.foldl_nil, ix.put_rows, ih hone',
      List.mem_append, List.mem_singleton]
    constructor
    · rintro (rfl | ⟨hr | ⟨hd, hkv⟩, -⟩)
      · exact Or.inr ⟨rfl, Or.inr rfl⟩
      · exact Or.inl hr
      · exact Or.inr ⟨hd, Or.inl hkv⟩
    · rintro (hr | ⟨hd, hkv | he⟩)
      · exact Or.inr ⟨Or.inl hr, fun he => hnew r hr he.2⟩
      · by_cases hk : r.key = k
        · -- the same row once more
          have hv : r.value = v :=
            hone _ (List.mem_append_left _ hkv) (k, v) (by simp) hk
          left
          obtain ⟨rk, rd, rv⟩ := r
          cases hk
          cases hd
          cases hv
          rfl
        · exact Or.inr ⟨Or.inr ⟨hd, hkv⟩, fun he => hk he.1⟩
      · left
        obtain ⟨rk, rd, rv⟩ := r
        cases hd
        cases he
        rfl

end MultiIndex

section
variable {κ ν Doc Key : Type} {keys : Doc → List Key} {observer : Update Doc → List DocID}
  {db : Storage Doc Key keys observer} {ix : MultiIndex κ ν} {emit out into : Doc → List (κ × ν)}
  {rows : ix.State} {id : DocID}

/-- A document that goes takes its rows along. -/
theorem Mirrors.without {s : db.State} (h : Mirrors emit (ix.rows rows) (db.records s)) {i : DocID}
    (hout : ∀ d, (i, d) ∈ db.records s → out d = emit d) {e : Entry κ ν} :
    e ∈ ix.rows (ix.takeOut out ((db.records s).find i) i rows) ↔
      e ∈ ix.rows rows ∧ e.doc ≠ i := by
  cases hfind : (db.records s).find i with
  | none =>
    refine ⟨fun he => ⟨he, ?_⟩, And.left⟩
    rintro rfl
    obtain ⟨d, hd, -⟩ := (h e).mp he
    rw [(find_eq_some (db.ids_nodup s)).mpr hd] at hfind
    cases hfind
  | some d =>
    have hd : (i, d) ∈ db.records s := (find_eq_some (db.ids_nodup s)).mp hfind
    simp only [MultiIndex.takeOut, ix.mem_erased, hout d hd]
    constructor
    · rintro ⟨he, hno⟩
      refine ⟨he, ?_⟩
      rintro rfl
      obtain ⟨d', hd', hkv⟩ := (h e).mp he
      cases same_record (db.ids_nodup s) hd hd' rfl
      exact hno _ hkv ⟨rfl, rfl⟩
    · rintro ⟨he, hne⟩
      exact ⟨he, fun kv _ hi => hne hi.2⟩

/-- After a document went, the rows are those of the others. -/
theorem Mirrors.erase (hc : Compacts observer) {s : db.State}
    (h : Mirrors emit (ix.rows rows) (db.records s)) {i : DocID}
    (hout : ∀ d, (i, d) ∈ db.records s → out d = emit d) (into : Doc → List (κ × ν)) :
    Mirrors emit (ix.rows (ix.reindex out into ⟨none, 0, (db.records s).find i, i⟩ rows))
      (db.records (db.erase s i)) := by
  intro e
  rw [MultiIndex.reindex, MultiIndex.bringIn, h.without hout, h e]
  simp only [erase_mem db hc]
  constructor
  · rintro ⟨⟨d, hd, hkv⟩, hne⟩
    exact ⟨d, ⟨hd, hne⟩, hkv⟩
  · rintro ⟨d, ⟨hd, hne⟩, hkv⟩
    exact ⟨⟨d, hd, hkv⟩, hne⟩

/-- After a document came, and took the place of another, so they are. -/
theorem Mirrors.put (hc : Compacts observer) {s s' : db.State}
    (h : Mirrors emit (ix.rows rows) (db.records s)) (hp : db.put s d old = some (id, s'))
    (hout : ∀ d, (old, d) ∈ db.records s → out d = emit d) (hinto : into d = emit d)
    (hone : OneValued emit d) :
    Mirrors emit (ix.rows (ix.reindex out into ⟨some d, id, (db.records s).find old, old⟩ rows))
      (db.records s') := by
  have hfresh : ∀ r ∈ ix.rows (ix.takeOut out ((db.records s).find old) old rows), r.doc ≠ id := by
    rintro r hr rfl
    obtain ⟨d', hd', -⟩ := (h r).mp ((h.without hout).mp hr).1
    have hlt := (db.put_records _ _ _ _ _ hp).1
    exact Nat.lt_irrefl _ (Nat.lt_of_lt_of_le hlt (db.ids_bound s _ hd').2)
  intro e
  rw [MultiIndex.reindex, MultiIndex.bringIn, ix.mem_entered hfresh (hinto ▸ hone),
    h.without hout, h e, hinto]
  simp only [put_mem db hc hp, Prod.mk.injEq]
  constructor
  · rintro (⟨⟨d', hd', hkv⟩, hne⟩ | ⟨he, hkv⟩)
    · exact ⟨d', Or.inr ⟨hd', hne⟩, hkv⟩
    · exact ⟨d, Or.inl ⟨he, rfl⟩, hkv⟩
  · rintro ⟨d', ⟨he, rfl⟩ | ⟨hd', hne⟩, hkv⟩
    · exact Or.inr ⟨he, hkv⟩
    · exact Or.inl ⟨⟨d', hd', hkv⟩, hne⟩

end

end Docdb
