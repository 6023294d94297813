import NostrServer.Outcomes
import NostrServer.Selection

namespace NostrServer
open Docdb

namespace App
variable {rl : Relay} {id : DocID}

/-- A document came in under a number of its own and took the place of `old`. -/
structure Wrote (a a' : App rl) (d : EventOrAttachment) (old id : DocID) : Prop where
  fresh : ∀ r ∈ a.records, r.1 ≠ id
  mem : ∀ r, r ∈ a'.records ↔ r = (id, d) ∨ (r ∈ a.records ∧ r.1 ≠ old)
  attachments : ∃ mem, a'.attachments =
    attachmentsUpdate rl.ext mem ⟨some d, id, a.find old, old⟩ a.attachments
  free : ¬ Taken (uniqueKeys rl.ext) a.records d old

theorem put_later {a a' : App rl} (h : a.put mem d old = some a') : ∃ id, Wrote a a' d old id ∧
    a'.published = a.published ∧ rl.db.rev a.storage < id ∧ id ≤ rl.db.rev a'.storage := by
  obtain ⟨⟨id, s'⟩, hp, rfl⟩ := Option.map_eq_some_iff.mp h
  obtain ⟨hlt, hle, _⟩ := rl.db.put_records _ _ _ _ _ hp
  refine ⟨id, ⟨fun r hr he => ?_, put_mem rl.db autocompact_compacts hp, ⟨mem, rfl⟩,
    put_free rl.db hp⟩, rfl, hlt, hle⟩
  exact Nat.lt_irrefl _ (Nat.lt_of_lt_of_le (he ▸ hlt) (rl.db.ids_bound _ r hr).2)

theorem put_wrote {a a' : App rl} (h : a.put mem d old = some a') :
    ∃ id, Wrote a a' d old id ∧ a'.published = a.published := by
  obtain ⟨id, w, hpub, _⟩ := put_later h
  exact ⟨id, w, hpub⟩

theorem put_none {a : App rl} (h : a.put mem d old = none) :
    Taken (uniqueKeys rl.ext) a.records d old :=
  (rl.db.put_rejected _ _ _).mp (Option.map_eq_none_iff.mp h)

theorem put_some {a : App rl} (h : ¬ Taken (uniqueKeys rl.ext) a.records d old)
    (mem : IndexMemory) :
    ∃ a', a.put mem d old = some a' := by
  cases hp : a.put mem d old with
  | some a' => exact ⟨a', rfl⟩
  | none => exact absurd (put_none hp) h

structure Lost (a a' : App rl) (i : DocID) : Prop where
  mem : ∀ r, r ∈ a'.records ↔ r ∈ a.records ∧ r.1 ≠ i
  attachments : ∃ mem, a'.attachments =
    attachmentsUpdate rl.ext mem ⟨none, 0, a.find i, i⟩ a.attachments

theorem erase_lost (a : App rl) (mem : IndexMemory) (i : DocID) :
    Lost a (a.erase mem i) i ∧ (a.erase mem i).published = a.published :=
  ⟨⟨erase_mem rl.db autocompact_compacts a.storage i, mem, rfl⟩, rfl⟩

theorem ids_nodup (a : App rl) : (a.records.map Prod.fst).Nodup := rl.db.ids_nodup a.storage

theorem find_iff {a : App rl} : a.find i = some d ↔ (i, d) ∈ a.records := find_eq_some a.ids_nodup

theorem number_pos {a : App rl} (h : r ∈ a.records) : r.1 ≠ 0 :=
  Nat.pos_iff_ne_zero.mp (rl.db.ids_bound a.storage r h).1

structure Valid (a : App rl) : Prop where
  unique : Unique (uniqueKeys rl.ext) a.records
  indexed : ∀ r ∈ a.records, ∀ ev, r.2 = .event ev → ev.Indexed rl.ext.hasher

def store (a : App rl) (h : a.Valid) : Store rl.ext := ⟨a.records, a.ids_nodup, h.unique, h.indexed⟩

theorem store_has {a : App rl} (h : a.Valid) :
    (a.store h).Has id ev ↔ (id, .event ev) ∈ a.records := Iff.rfl

/-- An id names one event. -/
theorem Valid.same_event {a : App rl} {i j : DocID} (hv : a.Valid) (h : (i, .event ev) ∈ a.records)
    (h' : (j, .event ev') ∈ a.records) (he : ev.id = ev'.id) : i = j ∧ ev = ev' :=
  Store.same_id ((store_has hv).mpr h) ((store_has hv).mpr h') he

theorem Wrote.valid {a a' : App rl} (w : Wrote a a' d old id) (h : a.Valid)
    (hd : ∀ ev, d = .event ev → ev.Indexed rl.ext.hasher) : a'.Valid := by
  have hjoined (r) (hr : r ∈ a'.records) :
      r = (id, d) ∨ (r ∈ a.records ∧ ∀ k ∈ uniqueKeys rl.ext d, k ∉ uniqueKeys rl.ext r.2) :=
    ((w.mem r).mp hr).imp_right (fun hm => ⟨hm.1, not_taken w.free hm.1 hm.2⟩)
  refine ⟨h.unique.joined hjoined, fun r hr ev he => ?_⟩
  rcases hjoined r hr with rfl | ⟨hr, _⟩
  · exact hd ev he
  · exact h.indexed r hr ev he

theorem Lost.valid {a a' : App rl} (l : Lost a a' i) (h : a.Valid) : a'.Valid :=
  ⟨h.unique.subset (fun r hr => ((l.mem r).mp hr).1), fun r hr => h.indexed r ((l.mem r).mp hr).1⟩

theorem findEventById_spec (a : App rl) (id : ID) :
    (a.findEventById id = 0 ∧ ∀ i ev, (i, .event ev) ∈ a.records → ev.id ≠ id) ∨
    ∃ ev, (a.findEventById id, .event ev) ∈ a.records ∧ ev.id = id := by
  unfold findEventById
  split
  · rename_i row hrow
    right
    have hkey : row.key = id.bytes := by simpa using List.find?_some hrow
    obtain ⟨d, hd, hkv⟩ := mem_indexRows.mp (List.mem_of_find?_eq_some hrow)
    cases d with
    | attachment att => simp [indexByIdFn] at hkv
    | event ev =>
      simp only [indexByIdFn, List.mem_singleton, Prod.mk.injEq] at hkv
      exact ⟨ev, hd, Binary.ext (hkv.1.symm.trans hkey)⟩
  · rename_i hnone
    left
    refine ⟨rfl, fun i ev hev hid => ?_⟩
    have hrow : (⟨ev.id.bytes, i, ev.createdAt⟩ : Row Int64) ∈ indexRows indexByIdFn a.records :=
      mem_indexRows.mpr ⟨_, hev, by simp [indexByIdFn]⟩
    have := List.find?_eq_none.mp hnone _ hrow
    simp [hid] at this

/-- An event is found exactly when one with its id is stored. -/
theorem findEventById_eq_zero (a : App rl) (id : ID) :
    a.findEventById id = 0 ↔ ∀ i ev, (i, .event ev) ∈ a.records → ev.id ≠ id := by
  rcases a.findEventById_spec id with ⟨hz, hno⟩ | ⟨ev, hev, hid⟩
  · exact ⟨fun _ => hno, fun _ => hz⟩
  · exact ⟨fun hz => absurd hz (number_pos hev), fun hno => absurd hid (hno _ ev hev)⟩

theorem mem_indexByAuthorKind : (key, tm) ∈ indexByAuthorKindFn (.event ev) ↔
    replaceable ev = true ∧ key = ev.replaceKey ∧ tm = ev.createdAt := by
  unfold indexByAuthorKindFn
  split <;> simp_all

theorem findReplaceable_some {a : App rl} (h : a.findReplaceable key = some (i, tm)) :
    ∃ ev, (i, .event ev) ∈ a.records ∧ replaceable ev = true ∧ ev.replaceKey = key ∧
      tm = ev.createdAt := by
  obtain ⟨r, hr, hl⟩ := List.exists_of_findSome?_eq_some h
  obtain ⟨tm', hl, he⟩ := Option.map_eq_some_iff.mp hl
  simp only [Prod.mk.injEq] at he
  obtain ⟨rfl, rfl⟩ := he
  obtain ⟨j, d⟩ := r
  have hmem : (key, tm') ∈ indexByAuthorKindFn d := by
    cases d with
    | attachment att => simp [indexByAuthorKindFn] at hl
    | event ev =>
      by_cases hrep : replaceable ev = true
      · by_cases hk : key = ev.replaceKey
        · simp [indexByAuthorKindFn, hrep, hk] at hl ⊢
          exact hl.symm
        · have hb : (key == ev.replaceKey) = false := by simpa using hk
          simp [indexByAuthorKindFn, hrep, List.lookup_cons, hb] at hl
      · simp [indexByAuthorKindFn, hrep] at hl
  cases d with
  | attachment att => simp [indexByAuthorKindFn] at hmem
  | event ev =>
    obtain ⟨hrep, hk, ht⟩ := mem_indexByAuthorKind.mp hmem
    exact ⟨ev, hr, hrep, hk.symm, ht⟩

theorem findReplaceable_none {a : App rl} (h : a.findReplaceable key = none)
    (hr : (i, .event ev) ∈ a.records) (hrep : replaceable ev = true) : ev.replaceKey ≠ key := by
  rintro rfl
  have := List.findSome?_eq_none_iff.mp h _ hr
  simp [indexByAuthorKindFn, hrep] at this

/-- What `doc_to_replace` answers with. -/
theorem docToReplace_spec (a : App rl) (ev : Event) :
    (a.docToReplace ev = none ∧ ∃ i e, (i, .event e) ∈ a.records ∧ replaceable e = true ∧
      replaceable ev = true ∧
      e.replaceKey = ev.replaceKey ∧ ev.createdAt < e.createdAt) ∨
    (a.docToReplace ev = some 0 ∧ (replaceable ev = true → ∀ i e, (i, .event e) ∈ a.records →
      replaceable e = true → e.replaceKey ≠ ev.replaceKey)) ∨
    ∃ i e, a.docToReplace ev = some i ∧ (i, .event e) ∈ a.records ∧ replaceable e = true ∧
      replaceable ev = true ∧ e.replaceKey = ev.replaceKey ∧ e.createdAt ≤ ev.createdAt := by
  cases hrep : replaceable ev with
  | false =>
    have hd : a.docToReplace ev = some 0 := by simp [docToReplace, indexByAuthorKindFn, hrep]
    exact Or.inr (Or.inl ⟨hd, fun h => by cases h⟩)
  | true =>
    cases hf : a.findReplaceable ev.replaceKey with
    | none =>
      have hd : a.docToReplace ev = some 0 := by simp [docToReplace, indexByAuthorKindFn, hrep, hf]
      exact Or.inr (Or.inl ⟨hd, fun _ i e he hr => findReplaceable_none hf he hr⟩)
    | some p =>
      obtain ⟨i, tm⟩ := p
      obtain ⟨e, he, hr, hk, rfl⟩ := findReplaceable_some hf
      have hd : a.docToReplace ev = if e.createdAt > ev.createdAt then none else some i := by
        simp [docToReplace, indexByAuthorKindFn, hrep, hf]
      rw [hd]
      by_cases ht : e.createdAt > ev.createdAt
      · exact Or.inl ⟨if_pos ht, i, e, he, hr, rfl, hk, ht⟩
      · exact Or.inr (Or.inr ⟨i, e, if_neg ht, he, hr, rfl, hk, Int64.not_lt.mp ht⟩)

theorem not_replaceable_fileHeader {ev : Event} (h : ev.kind = Kind.fileHeader) :
    replaceable ev = false := by
  simp [replaceable, parameterizedReplaceable, h]
  decide

theorem not_replaceable_deletion {ev : Event} (h : ev.kind = Kind.eventDeletion) :
    replaceable ev = false := by
  simp [replaceable, parameterizedReplaceable, h]
  decide

/-- Headers of files replace nothing. -/
theorem docToReplace_fileHeader (a : App rl) {ev : Event} (h : ev.kind = Kind.fileHeader) :
    a.docToReplace ev = some 0 := by
  simp [docToReplace, indexByAuthorKindFn, not_replaceable_fileHeader h]

theorem holds_id {ext : External} {d : EventOrAttachment} (h : UniqueKey.ids x ∈ uniqueKeys ext d) :
    ∃ e, d = .event e ∧ e.id = x := by
  cases d with
  | attachment att => simp [uniqueKeys] at h
  | event e => exact ⟨e, rfl, by simpa [uniqueKeys, eq_comm] using h⟩

theorem holds_replaceable {ext : External} {d : EventOrAttachment} :
    UniqueKey.replaceable key ∈ uniqueKeys ext d ↔ ∃ e, d = .event e ∧ replaceable e = true ∧
    key = e.replaceKey := by
  have hrow : UniqueKey.replaceable key ∈ uniqueKeys ext d ↔
      ∃ tm, (key, tm) ∈ indexByAuthorKindFn d := by
    cases d <;> simp [uniqueKeys]
  rw [hrow]
  cases d with
  | attachment att => simp [indexByAuthorKindFn]
  | event e => simp [mem_indexByAuthorKind]

theorem holds_nip05 {ext : External} {d : EventOrAttachment} :
    UniqueKey.nip05 name ∈ uniqueKeys ext d ↔ name ∈ indexNip05Fn ext d := by
  cases d <;> simp [uniqueKeys]

/-- Events that are not replaceable are kept out by their ids alone. -/
theorem taken_plain {a : App rl} {ev : Event} {old : DocID} (hrep : replaceable ev = false)
    (ht : Taken (uniqueKeys rl.ext) a.records (.event ev) old) :
    ∃ i e, (i, .event e) ∈ a.records ∧ e.id = ev.id := by
  obtain ⟨k, hk, ⟨i, d⟩, hr, _, hd⟩ := ht
  have hkind : ev.kind ≠ Kind.metadata := by
    intro hk
    simp [replaceable, hk] at hrep
  have hkeys : uniqueKeys rl.ext (.event ev) = [.ids ev.id] := by
    simp [uniqueKeys, indexByAuthorKindFn, hrep, indexNip05Fn, hkind]
  rw [hkeys, List.mem_singleton] at hk
  subst hk
  obtain ⟨e, rfl, hid⟩ := holds_id hd
  exact ⟨i, e, hr, hid⟩

/-- `publish` leaves everything as it is, or stores the event and then hands it out. -/
theorem publish_spec {a a' : App rl} (h : a.publish mem ev src = .ok a') :
    (a.docToReplace ev = none ∧ a' = a) ∨
    ∃ old id, a.docToReplace ev = some old ∧ Wrote a a' (.event ev) old id ∧
      a'.published = a.published ++ [(ev, src)] := by
  unfold publish at h
  split at h
  · rename_i hd
    cases h
    exact Or.inl ⟨hd, rfl⟩
  · rename_i old hd
    split at h
    · cases h
    · rename_i a₁ hp
      obtain ⟨id, w, hpub⟩ := put_wrote hp
      refine Or.inr ⟨old, id, hd, ?_⟩
      cases h
      split
      · exact ⟨⟨w.fresh, w.mem, w.attachments, w.free⟩, by simp [publishEvent, hpub]⟩
      · exact ⟨⟨w.fresh, w.mem, w.attachments, w.free⟩, by simp [publishEvent, hpub]⟩

theorem publish_error {a : App rl} (h : a.publish mem ev src = .error e) :
    e = .duplicateKey ∧ ∃ old, a.docToReplace ev = some old ∧
    Taken (uniqueKeys rl.ext) a.records (.event ev) old := by
  unfold publish at h
  split at h
  · cases h
  · rename_i old hd
    split at h
    · rename_i hp
      cases h
      exact ⟨rfl, old, hd, put_none hp⟩
    · cases h

/-- `publishFile` leaves everything as it is, or stores the event, then its attachment. -/
theorem publishFile_spec {a a' : App rl} (h : a.publishFile mem mem' ev att src = .ok a') :
    (a.docToReplace ev = none ∧ a' = a) ∨
    ∃ old id a₁ id', a.docToReplace ev = some old ∧ Wrote a a₁ (.event ev) old id ∧
      Wrote a₁ a' (.attachment att) (a.findAttachment att.id) id' ∧
      a'.published = a.published ++ [(ev, src)] := by
  unfold publishFile at h
  dsimp only at h
  split at h
  · rename_i hd
    cases h
    exact Or.inl ⟨hd, rfl⟩
  · rename_i old hd
    split at h
    · cases h
    · rename_i a₂ hp
      obtain ⟨a₁, hp₁, hp₂⟩ := Option.bind_eq_some_iff.mp hp
      obtain ⟨id, w, hpub⟩ := put_wrote hp₁
      obtain ⟨id', w', hpub'⟩ := put_wrote hp₂
      cases h
      refine Or.inr ⟨old, id, a₁, id', hd, w, ⟨w'.fresh, w'.mem, w'.attachments, w'.free⟩, ?_⟩
      simp [publishEvent, hpub, hpub']

theorem publishFile_error {a : App rl} (h : a.publishFile mem mem' ev att src = .error e) :
    e = .duplicateKey ∧ ∃ old, a.docToReplace ev = some old ∧
    (Taken (uniqueKeys rl.ext) a.records (.event ev) old ∨
      ∃ a₁ id, Wrote a a₁ (.event ev) old id ∧
        Taken (uniqueKeys rl.ext) a₁.records (.attachment att) (a.findAttachment att.id)) := by
  unfold publishFile at h
  dsimp only at h
  split at h
  · cases h
  · rename_i old hd
    split at h
    · rename_i hp
      cases h
      refine ⟨rfl, old, hd, ?_⟩
      cases hp₁ : a.put mem (.event ev) old with
      | none => exact Or.inl (put_none hp₁)
      | some a₁ =>
        rw [hp₁, Option.bind_some] at hp
        obtain ⟨id, w, -⟩ := put_wrote hp₁
        exact Or.inr ⟨a₁, id, w, put_none hp⟩
    · cases h

end App

end NostrServer
