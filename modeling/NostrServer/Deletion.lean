import NostrServer.AppSteps

namespace NostrServer
open Docdb

namespace Session
variable {rl : Relay}

/-- The id a deletion request names, as `event_deletion` reads it. -/
def deletionTarget (mem : Memory) (event : Event) : ID :=
  fromHex mem.deletion (event.getTagContent (str "e"))

theorem deletionFilter_selects (mem : Memory) (event ev : Event) :
    (deletionFilter mem.deletion event).Selects rl.ext.hasher ev ↔
    ev.id = deletionTarget mem event := by
  have hfull : (ShortenID.full (deletionTarget mem event)).cmpShorten ev.id = true ↔
      ev.id = deletionTarget mem event := cmpShorten_full rfl
  constructor
  · intro h
    obtain ⟨a, ha, hc⟩ := h.ids (by simp [deletionFilter])
    rw [List.mem_singleton.mp ha] at hc
    exact hfull.mp hc
  · intro h
    refine ⟨fun _ => ⟨_, List.mem_singleton_self _, hfull.mpr h⟩, fun hn => absurd rfl hn, ?_,
      fun hn => absurd rfl hn, ?_⟩
    · simp [deletionFilter]
    · simp [deletionFilter]

/-- The rows `event_deletion` finds: the one event with that id, if it is stored. -/
theorem deletion_rows (a : App rl) (hv : a.Valid) (mem : Memory) (event : Event) :
    let rows := (rl.engine.sets.items
      (rl.engine.findInIndex a.records [deletionFilter mem.deletion event])).map Prod.fst
    (rows = [] ∧ ∀ i e, (i, .event e) ∈ a.records → e.id ≠ deletionTarget mem event) ∨
    ∃ i e, rows = [i] ∧ (i, .event e) ∈ a.records ∧ e.id = deletionTarget mem event := by
  intro rows
  have hmem (i : DocID) : i ∈ rows ↔ ∃ e, (i, .event e) ∈ a.records ∧
      e.id = deletionTarget mem event := by
    have hl : Listed (rl.engine.sets.items
        (rl.engine.findInIndex a.records [deletionFilter mem.deletion event])) i ↔
        ∃ e, (i, .event e) ∈ a.records ∧ ∃ f ∈ [deletionFilter mem.deletion event],
          f.Selects rl.ext.hasher e :=
      rl.engine.listed_findInIndex (a.store hv) (by simp [deletionFilter, Filter.Conditioned])
    simp only [List.mem_singleton, exists_eq_left, deletionFilter_selects] at hl
    rw [← hl]
    simp only [rows, Listed, List.mem_map, Prod.exists, exists_and_right, exists_eq_right]
  have hnd : rows.Nodup := rl.engine.sets.items_nodup _
  cases hr : rows with
  | nil =>
    refine Or.inl ⟨rfl, fun i e he hid => ?_⟩
    have := (hmem i).mpr ⟨e, he, hid⟩
    rw [hr] at this
    cases this
  | cons i rest =>
    obtain ⟨e, he, hid⟩ := (hmem i).mp (by rw [hr]; exact List.mem_cons_self)
    refine Or.inr ⟨i, e, ?_, he, hid⟩
    cases hrest : rest with
    | nil => rfl
    | cons j more =>
      have hj : j ∈ rows := by rw [hr, hrest]; simp
      obtain ⟨e', he', hid'⟩ := (hmem j).mp hj
      have hij : i = j := hv.unique _ he _ he' (.ids e.id) (id_key _ e)
        (by rw [hid.trans hid'.symm]; exact id_key _ e')
      rw [hr, hrest, hij] at hnd
      simp at hnd

/-- Everything `event_deletion` can do. The put of the request in place of its target
is the only change to the storage. -/
theorem eventDeletion_spec (s : Session rl) (hv : s.app.Valid) (mem : Memory) (self : Nat)
    (event : Event) :
    ((∀ i e, (i, .event e) ∈ s.app.records → e.id ≠ deletionTarget mem event) ∧
      s.eventDeletion mem self event = .ok (s.send (.ok event.id.toHex true []))) ∨
    (∃ i e, (i, .event e) ∈ s.app.records ∧ e.id = deletionTarget mem event ∧
      e.author ≠ event.author ∧
      s.eventDeletion mem self event = .error (.invalidArgument (str "pubkey missmatch"))) ∨
    (∃ i e, (i, .event e) ∈ s.app.records ∧ e.id = deletionTarget mem event ∧
      e.author = event.author ∧
      ((s.eventDeletion mem self event = .error .duplicateKey ∧
        Taken (uniqueKeys rl.ext) s.app.records (.event event) i) ∨
      ∃ a id, s.eventDeletion mem self event =
        .ok ({ s with app := a }.send (.ok event.id.toHex true [])) ∧
        App.Wrote s.app a (.event event) i id ∧
        a.published = s.app.published ++ [(event, some self)])) := by
  unfold eventDeletion
  rcases deletion_rows s.app hv mem event with ⟨hr, hno⟩ | ⟨i, e, hr, he, hid⟩
  · refine Or.inl ⟨hno, ?_⟩
    simp only [hr, deletionBatch, commitBatch, List.isEmpty_nil, ↓reduceIte]
  · have hf : s.app.records.find i = some (.event e) := (find_eq_some s.app.ids_nodup).mpr he
    right
    by_cases hauth : e.author = event.author
    · right
      refine ⟨i, e, he, hid, hauth, ?_⟩
      have hb : deletionBatch s.app.records event false [i] = .ok [.put i] := by
        simp [deletionBatch, hf, hauth]
      simp only [hr, hb, commitBatch]
      cases hp : s.app.put (mem.index ([] : List BatchOp).length) (.event event) i with
      | none => exact Or.inl ⟨rfl, App.put_none hp⟩
      | some a =>
        obtain ⟨id, w, hpub⟩ := App.put_wrote hp
        refine Or.inr ⟨a.publishEvent event (some self), id, rfl, ?_, ?_⟩
        · exact ⟨w.fresh, w.mem, w.attachments, w.free⟩
        · simp [App.publishEvent, hpub]
    · left
      refine ⟨i, e, he, hid, hauth, ?_⟩
      have hb : deletionBatch s.app.records event false [i] =
          .error (.invalidArgument (str "pubkey missmatch")) := by
        simp [deletionBatch, hf, hauth]
      simp only [hr, hb]

end Session

end NostrServer
