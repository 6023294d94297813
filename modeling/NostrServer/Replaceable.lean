import NostrServer.Lib.LatestMap
import NostrServer.ReferenceServer
import NostrServer.Steps

namespace NostrServer
open Docdb

variable {rl : Relay}

theorem parameterizedReplaceable_iff {ev : Event} : parameterizedReplaceable ev = true ↔
    30000 ≤ ev.kind ∧ ev.kind < 40000 := by
  simp only [parameterizedReplaceable, Bool.and_eq_true, decide_eq_true_eq]
  exact Iff.rfl

theorem replaceable_iff {ev : Event} : replaceable ev = true ↔ ev.kind = 0 ∨ ev.kind = 3 ∨
    (10000 ≤ ev.kind ∧ ev.kind < 20000) ∨ (30000 ≤ ev.kind ∧ ev.kind < 40000) := by
  simp only [replaceable, Bool.or_eq_true, Bool.and_eq_true, decide_eq_true_eq, beq_iff_eq,
    parameterizedReplaceable_iff, or_assoc]
  exact Iff.rfl

/-- The `d` tag is part of the key where the kind is parameterized, and nowhere else. -/
theorem replaceKey_eq_iff {e e' : Event} :
    e.replaceKey = e'.replaceKey ↔ e.author = e'.author ∧ e.kind = e'.kind ∧
    (30000 ≤ e.kind ∧ e.kind < 40000 → e.getTagContent (str "d") = e'.getTagContent (str "d")) := by
  simp only [Event.replaceKey, AuthorKindTagKey.mk.injEq]
  refine and_congr_right (fun _ => and_congr_right (fun hk => ?_))
  have hp : parameterizedReplaceable e' = parameterizedReplaceable e := by
    simp [parameterizedReplaceable, hk]
  rw [← parameterizedReplaceable_iff, hp]
  cases parameterizedReplaceable e <;> simp

def EventOrAttachment.under (key : AuthorKindTagKey) : EventOrAttachment → Option Event
  | .event e => if replaceable e = true ∧ e.replaceKey = key then some e else none
  | .attachment _ => none

namespace App
variable {a a' : App rl} {id : DocID}

def HoldsUnder (a : App rl) (key : AuthorKindTagKey) (e : Event) : Prop :=
  (∃ i, (i, .event e) ∈ a.records) ∧ replaceable e = true ∧ e.replaceKey = key

def latest (a : App rl) : LatestMap AuthorKindTagKey Event :=
  fun key => a.records.findSome? (fun r => r.2.under key)

theorem replaceable_key (ext : External) {e : Event} (h : replaceable e = true)
    (hk : e.replaceKey = key) :
    UniqueKey.replaceable key ∈ uniqueKeys ext (.event e) := by
  simp [uniqueKeys, indexByAuthorKindFn, h, hk]

/-- A key belongs to one event. -/
theorem Valid.same_key (hv : a.Valid) {i j : DocID} (h : (i, .event e) ∈ a.records)
    (h' : (j, .event e') ∈ a.records) (hr : replaceable e = true) (hr' : replaceable e' = true)
    (hk : e.replaceKey = e'.replaceKey) : i = j ∧ e = e' := by
  have hij : i = j := hv.unique _ h _ h' (.replaceable e.replaceKey) (replaceable_key _ hr rfl)
    (replaceable_key _ hr' hk.symm)
  have hrec := same_record a.ids_nodup h h' hij
  simp only [Prod.mk.injEq, EventOrAttachment.event.injEq] at hrec
  exact hrec

theorem latest_eq_some (hv : a.Valid) : a.latest key = some e ↔ a.HoldsUnder key e := by
  constructor
  · intro h
    obtain ⟨⟨i, d⟩, hr, hu⟩ := List.exists_of_findSome?_eq_some h
    cases d with
    | attachment att => cases hu
    | event e' =>
      simp only [EventOrAttachment.under, Option.ite_none_right_eq_some, Option.some.injEq] at hu
      obtain ⟨⟨hrep, hk⟩, rfl⟩ := hu
      exact ⟨⟨i, hr⟩, hrep, hk⟩
  · rintro ⟨⟨i, hi⟩, hrep, hk⟩
    have hu : (EventOrAttachment.event e).under key = some e := by
      simp [EventOrAttachment.under, hrep, hk]
    cases hl : a.latest key with
    | none =>
      have := List.findSome?_eq_none_iff.mp hl _ hi
      rw [hu] at this
      cases this
    | some e' =>
      obtain ⟨⟨j, d⟩, hr, hu'⟩ := List.exists_of_findSome?_eq_some hl
      cases d with
      | attachment att => cases hu'
      | event e'' =>
        simp only [EventOrAttachment.under, Option.ite_none_right_eq_some, Option.some.injEq] at hu'
        obtain ⟨⟨hrep', hk'⟩, rfl⟩ := hu'
        rw [(hv.same_key hr hi hrep' hrep (hk'.trans hk.symm)).2]

theorem latest_eq_none (hv : a.Valid) : a.latest key = none ↔ ∀ e, ¬ a.HoldsUnder key e := by
  simp only [Option.eq_none_iff_forall_ne_some, ne_eq, latest_eq_some hv]

/-- Storages with the same events hold the same under every key. -/
theorem latest_congr (hv : a.Valid) (hv' : a'.Valid)
    (h : ∀ i e, (i, EventOrAttachment.event e) ∈ a'.records ↔
      (i, EventOrAttachment.event e) ∈ a.records) :
    a'.latest = a.latest := by
  funext key
  apply Option.ext
  intro e
  rw [latest_eq_some hv, latest_eq_some hv']
  simp only [HoldsUnder, h]

/-- A document is put, and taken out, under the key of the event alone. -/
theorem Wrote.latest_elsewhere {ev : Event} {old : DocID} (w : Wrote a a' (.event ev) old id)
    (hv : a.Valid) (hi : ev.Indexed rl.ext.hasher) (hd : a.docToReplace ev = some old)
    (hkey : replaceable ev = true → ev.replaceKey ≠ key) : a'.latest key = a.latest key := by
  have hv' : a'.Valid := w.valid hv (fun e he => by cases he; exact hi)
  apply Option.ext
  intro e
  simp only [latest_eq_some hv, latest_eq_some hv', HoldsUnder, w.mem]
  constructor
  · rintro ⟨⟨i, he | ⟨hm, _⟩⟩, hr, hk⟩
    · cases he
      exact absurd hk (hkey hr)
    · exact ⟨⟨i, hm⟩, hr, hk⟩
  · rintro ⟨⟨i, hm⟩, hr, hk⟩
    refine ⟨⟨i, Or.inr ⟨hm, ?_⟩⟩, hr, hk⟩
    rintro rfl
    rcases a.docToReplace_spec ev with ⟨h, _⟩ | ⟨h, _⟩ | ⟨j, e', h, hj, hr', hrep, hk', _⟩
    · rw [h] at hd
      cases hd
    · rw [h] at hd
      exact number_pos hm (Option.some.inj hd).symm
    · cases h.symm.trans hd
      cases same_record a.ids_nodup hj hm rfl
      exact hkey hrep (hk'.symm.trans hk)

/-- Storing an event offers it under its key. -/
theorem Wrote.latest {ev : Event} {old : DocID} (w : Wrote a a' (.event ev) old id) (hv : a.Valid)
    (hi : ev.Indexed rl.ext.hasher) (hd : a.docToReplace ev = some old) :
    a'.latest = if replaceable ev then a.latest.offer Event.createdAt ev.replaceKey ev
      else a.latest := by
  have hv' : a'.Valid := w.valid hv (fun e he => by cases he; exact hi)
  have hnew : (id, .event ev) ∈ a'.records := (w.mem _).mpr (Or.inl rfl)
  cases hrep : replaceable ev with
  | false =>
    funext key
    exact w.latest_elsewhere hv hi hd (fun h => by rw [hrep] at h; cases h)
  | true =>
    simp only [↓reduceIte]
    funext key
    by_cases hkey : key = ev.replaceKey
    · have hlast : a'.latest key = some ev := (latest_eq_some hv').mpr ⟨⟨id, hnew⟩, hrep, hkey.symm⟩
      rw [hlast, hkey, LatestMap.offer]
      simp only [↓reduceIte]
      split
      · rename_i e he
        obtain ⟨⟨j, hj⟩, hr, hk⟩ := (latest_eq_some hv).mp he
        rcases a.docToReplace_spec ev with ⟨h, _⟩ | ⟨h, hno⟩ | ⟨i, e', _, hi', hr', _, hk', ht⟩
        · rw [h] at hd
          cases hd
        · exact absurd hk (hno hrep j e hj hr)
        · obtain ⟨_, rfl⟩ := hv.same_key hj hi' hr hr' (hk.trans hk'.symm)
          rw [if_neg (Int64.not_lt.mpr ht)]
      · rfl
    · rw [w.latest_elsewhere hv hi hd (fun _ he => hkey he.symm)]
      simp [LatestMap.offer, hkey]

/-- Storing an attachment leaves the events alone. -/
theorem Wrote.events {att : Attachment} {old : DocID} (w : Wrote a a' (.attachment att) old id)
    (hold : ∀ e, (old, .event e) ∉ a.records) (i : DocID) (e : Event) :
    (i, .event e) ∈ a'.records ↔ (i, .event e) ∈ a.records := by
  rw [w.mem]
  constructor
  · rintro (he | ⟨hm, _⟩)
    · cases he
    · exact hm
  · intro hm
    refine Or.inr ⟨hm, ?_⟩
    rintro rfl
    exact hold e hm

/-- A put of a number that a key names takes out no event but the one under that key. -/
theorem docToReplace_under {ev e : Event} {old : DocID} (hd : a.docToReplace ev = some old)
    (he : (old, .event e) ∈ a.records) :
    replaceable e = true ∧ replaceable ev = true ∧ e.replaceKey = ev.replaceKey := by
  rcases a.docToReplace_spec ev with ⟨h, _⟩ | ⟨h, _⟩ | ⟨i, e', h, hi, hr, hr', hk, _⟩
  · rw [h] at hd
    cases hd
  · cases h.symm.trans hd
    exact absurd rfl (number_pos he)
  · cases h.symm.trans hd
    cases same_record a.ids_nodup hi he rfl
    exact ⟨hr, hr', hk⟩

end App

/-- The calls that write, each taken to its end. Events carry the tables of their
tags, attachments are named by their hashes, and deletions are of kind 5. -/
inductive Call (rl : Relay) where
  | publish (mem : IndexMemory) (ev : Event) (publisher : Option Nat)
    (indexed : ev.Indexed rl.ext.hasher)
  | publishFile (mem mem' : IndexMemory) (ev : Event) (attach : Attachment) (publisher : Option Nat)
      (indexed : ev.Indexed rl.ext.hasher) (hashed : attach.id = rl.ext.sha256 attach.data)
  | deletion (peer : Peer) (mem : Memory) (self : Nat) (ev : Event)
    (indexed : ev.Indexed rl.ext.hasher)
      (kind : ev.kind = Kind.eventDeletion)

namespace Call

def publishes : Call rl → Option Event
  | .publish _ ev _ _ => some ev
  | .publishFile _ _ ev _ _ _ _ => some ev
  | .deletion _ _ _ _ _ _ => none

def result (a : App rl) : Call rl → Except Exn (App rl)
  | .publish mem ev src _ => a.publish mem ev src
  | .publishFile mem mem' ev att src _ _ => a.publishFile mem mem' ev att src
  | .deletion peer mem self ev _ _ =>
    (({ app := a, peer } : Session rl).eventDeletion mem self ev).map Session.app

def step (a : App rl) (c : Call rl) : App rl :=
  match c.result a with
  | .ok a' => a'
  | .error _ => a

def machine (rl : Relay) : Machine (App rl) (Call rl) := ⟨{ storage := rl.db.empty }, step⟩

abbrev run (rl : Relay) (calls : List (Call rl)) : App rl := (machine rl).run calls

end Call

/-- What a call of `App::publish` stores, or that it leaves everything as it was. -/
structure App.Took (a a' : App rl) (ev : Event) : Prop where
  valid : a'.Valid
  filed : a'.Filed
  latest : a'.latest = if replaceable ev then a.latest.offer Event.createdAt ev.replaceKey ev
    else a.latest
  keeps : ∀ i e, (i, .event e) ∈ a.records →
    ¬ (replaceable e = true ∧ replaceable ev = true ∧ e.replaceKey = ev.replaceKey) →
    (i, .event e) ∈ a'.records
  older : ∀ e, a.HoldsUnder ev.replaceKey e → replaceable ev = true →
    ev.createdAt < e.createdAt → a' = a

namespace App
variable {a a' : App rl}

/-- Nothing is done for an event that is older than the one stored. -/
theorem took_nothing (hv : a.Valid) (hf : a.Filed) (hd : a.docToReplace ev = none) :
    a.Took a ev := by
  refine ⟨hv, hf, ?_, fun i e he _ => he, fun _ _ _ _ => rfl⟩
  rcases a.docToReplace_spec ev with ⟨_, i, e, he, hr, hrep, hk, ht⟩ | ⟨h, _⟩ | ⟨i, e, h, _⟩
  · rw [if_pos hrep, LatestMap.offer_older ((latest_eq_some hv).mpr ⟨⟨i, he⟩, hr, hk⟩) ht]
  · rw [h] at hd
    cases hd
  · rw [h] at hd
    cases hd

theorem not_older {old : DocID} (hv : a.Valid) (hd : a.docToReplace ev = some old)
    (he : a.HoldsUnder ev.replaceKey e) (hrep : replaceable ev = true) :
    ¬ ev.createdAt < e.createdAt := by
  obtain ⟨⟨j, hj⟩, hr, hk⟩ := he
  rcases a.docToReplace_spec ev with ⟨h, _⟩ | ⟨h, hno⟩ | ⟨i, e', _, hi, hr', _, hk', ht⟩
  · rw [h] at hd
    cases hd
  · exact absurd hk (hno hrep j e hj hr)
  · obtain ⟨_, rfl⟩ := hv.same_key hj hi hr hr' (hk.trans hk'.symm)
    exact Int64.not_lt.mpr ht

theorem Wrote.took {ev : Event} {old id : DocID} (w : Wrote a a' (.event ev) old id) (hv : a.Valid)
    (hf : a.Filed) (hi : ev.Indexed rl.ext.hasher) (hd : a.docToReplace ev = some old) :
    a.Took a' ev := by
  refine ⟨w.valid hv (fun e he => by cases he; exact hi), w.filed hv hf (fun att he => by cases he),
    w.latest hv hi hd, fun i e he hno => (w.mem _).mpr (Or.inr ⟨he, ?_⟩),
    fun e he hrep ht => absurd ht (not_older hv hd he hrep)⟩
  rintro rfl
  exact hno (docToReplace_under hd he)

theorem publish_took (hv : a.Valid) (hf : a.Filed) (hi : ev.Indexed rl.ext.hasher)
    (h : a.publish mem ev src = .ok a') : a.Took a' ev := by
  rcases publish_spec h with ⟨hd, rfl⟩ | ⟨old, id, hd, w, _⟩
  · exact took_nothing hv hf hd
  · exact w.took hv hf hi hd

theorem publishFile_took (hv : a.Valid) (hf : a.Filed) (hi : ev.Indexed rl.ext.hasher)
    (hatt : att.id = rl.ext.sha256 att.data) (h : a.publishFile mem mem' ev att src = .ok a') :
    a.Took a' ev := by
  rcases publishFile_spec h with ⟨hd, rfl⟩ | ⟨old, id, a₁, id', hd, w, w', _⟩
  · exact took_nothing hv hf hd
  · have h₁ := w.took hv hf hi hd
    have hold (e : Event) : (a.findAttachment att.id, .event e) ∉ a₁.records := by
      intro he
      rcases findAttachment_spec hf att.id with ⟨hz, _⟩ | ⟨att', hatt', _⟩
      · rw [hz] at he
        exact number_pos he rfl
      · rcases (w.mem _).mp he with heq | ⟨hm, _⟩
        · exact w.fresh _ hatt' (Prod.mk.inj heq).1
        · cases same_record a.ids_nodup hatt' hm rfl
    have hv' : a'.Valid := w'.valid h₁.valid (fun e he => by cases he)
    have hevents := w'.events hold
    refine ⟨hv', w'.filed h₁.valid h₁.filed (fun att' he => by cases he; exact hatt), ?_,
      fun i e he hno => (hevents i e).mpr (h₁.keeps i e he hno),
      fun e he hrep ht => absurd ht (not_older hv hd he hrep)⟩
    rw [latest_congr h₁.valid hv' hevents, h₁.latest]

/-- A deletion clears the key of what it takes out, if that has one. -/
theorem deletion_clears {ev e : Event} {i id : DocID} (w : Wrote a a' (.event ev) i id)
    (hv : a.Valid) (hi : ev.Indexed rl.ext.hasher) (hk : ev.kind = Kind.eventDeletion)
    (he : (i, .event e) ∈ a.records) :
    a'.latest = if replaceable e then a.latest.clear e.replaceKey else a.latest := by
  have hv' : a'.Valid := w.valid hv (fun e he => by cases he; exact hi)
  have hplain := not_replaceable_deletion hk
  have hstored (j : DocID) (e' : Event) (hr : replaceable e' = true) :
      (j, .event e') ∈ a'.records ↔ (j, .event e') ∈ a.records ∧ j ≠ i := by
    rw [w.mem]
    apply or_iff_right
    intro heq
    cases heq
    rw [hplain] at hr
    cases hr
  funext key
  apply Option.ext
  intro e'
  cases hrep : replaceable e with
  | false =>
    simp only [Bool.false_eq_true, ↓reduceIte, latest_eq_some hv, latest_eq_some hv', HoldsUnder]
    refine and_congr_left (fun ⟨hr, _⟩ =>
      exists_congr (fun j => (hstored j e' hr).trans (and_iff_left_of_imp ?_)))
    rintro hj rfl
    cases same_record a.ids_nodup he hj rfl
    rw [hrep] at hr
    cases hr
  | true =>
    simp only [↓reduceIte, LatestMap.clear]
    by_cases hkey : key = e.replaceKey
    · rw [if_pos hkey, latest_eq_some hv']
      refine iff_of_false ?_ (by simp)
      rintro ⟨⟨j, hj⟩, hr, hk'⟩
      obtain ⟨hj, hne⟩ := (hstored j e' hr).mp hj
      exact hne (hv.same_key hj he hr hrep (hk'.trans hkey)).1
    · rw [if_neg hkey, latest_eq_some hv, latest_eq_some hv']
      refine and_congr_left (fun ⟨hr, hk'⟩ =>
        exists_congr (fun j => (hstored j e' hr).trans (and_iff_left_of_imp ?_)))
      rintro hj rfl
      cases same_record a.ids_nodup he hj rfl
      exact hkey hk'.symm

end App

namespace Call
variable {a a' : App rl}

theorem step_ok {c : Call rl} (h : c.result a = .ok a') : step a c = a' := by simp [step, h]

theorem step_error {c : Call rl} (h : c.result a = .error e) : step a c = a := by simp [step, h]

theorem result_took (hv : a.Valid) (hf : a.Filed) {c : Call rl} (hc : c.publishes = some ev)
    (h : c.result a = .ok a') : a.Took a' ev := by
  cases c with
  | publish mem ev src hi =>
    cases hc
    exact App.publish_took hv hf hi h
  | publishFile mem mem' ev att src hi hatt =>
    cases hc
    exact App.publishFile_took hv hf hi hatt h
  | deletion peer mem self ev hi hk => cases hc

/-- A publish that throws does nothing, any other takes its event. -/
theorem publish_cases (hv : a.Valid) (hf : a.Filed) {c : Call rl} (hc : c.publishes = some ev) :
    ((c.result a).isOk = false ∧ step a c = a) ∨ a.Took (step a c) ev := by
  cases h : c.result a with
  | error e => exact Or.inl ⟨rfl, step_error h⟩
  | ok a' => exact Or.inr (step_ok h ▸ result_took hv hf hc h)

/-- Every call keeps the storage in order and makes one move in the map. -/
theorem step_moves (hv : a.Valid) (hf : a.Filed) (c : Call rl) :
    (step a c).Valid ∧ (step a c).Filed ∧
    LatestMap.Move Event.createdAt a.latest (step a c).latest := by
  have took {ev : Event} (hc : c.publishes = some ev) : (step a c).Valid ∧ (step a c).Filed ∧
      LatestMap.Move Event.createdAt a.latest (step a c).latest := by
    rcases publish_cases hv hf hc with ⟨_, he⟩ | t
    · rw [he]
      exact ⟨hv, hf, .kept⟩
    · refine ⟨t.valid, t.filed, ?_⟩
      rw [t.latest]
      split
      · exact .offered _ _
      · exact .kept
  have same (hs : step a c = a) : (step a c).Valid ∧ (step a c).Filed ∧
      LatestMap.Move Event.createdAt a.latest (step a c).latest := by
    rw [hs]
    exact ⟨hv, hf, .kept⟩
  cases c with
  | publish mem ev src hi => exact took rfl
  | publishFile mem mem' ev att src hi hatt => exact took rfl
  | deletion peer mem self ev hi hk =>
    rcases Session.eventDeletion_spec { app := a, peer } hv mem self ev with
      ⟨_, he⟩ | ⟨_, _, _, _, _, he⟩ | ⟨i, e, hm, _, _, ⟨he, _⟩ | ⟨a', id, he, w, _⟩⟩
    · exact same (by simp [step, result, he, Except.map, Session.send])
    · exact same (by simp [step, result, he, Except.map])
    · exact same (by simp [step, result, he, Except.map])
    · have hs : step a (.deletion peer mem self ev hi hk) = a' := by
        simp [step, result, he, Except.map, Session.send]
      rw [hs]
      refine ⟨w.valid hv (fun e he => by cases he; exact hi),
        w.filed hv hf (fun att he => by cases he), ?_⟩
      rw [App.deletion_clears w hv hi hk hm]
      split
      · exact .cleared _
      · exact .kept

theorem run_step (pre : List (Call rl)) (c : Call rl) : run rl (pre ++ [c]) = step (run rl pre) c :=
  (machine rl).run_snoc pre c

theorem run_inOrder (calls : List (Call rl)) : (run rl calls).Valid ∧ (run rl calls).Filed := by
  have hstart := Server.start_regular rl
  refine Machine.run_always (m := machine rl) (P := fun a => a.Valid ∧ a.Filed)
    ⟨hstart.valid, hstart.filed⟩
    (fun a c h => ?_) calls
  obtain ⟨hv, hf, _⟩ := step_moves h.1 h.2 c
  exact ⟨hv, hf⟩

def Vacates (a : App rl) (c : Call rl) (key : AuthorKindTagKey) : Prop :=
  (∃ e, a.HoldsUnder key e) ∧ ∀ e, ¬ (step a c).HoldsUnder key e

/-- Over calls that do not vacate the key, what it holds does not get older. -/
theorem since_kept {pre post : List (Call rl)} (h : (run rl pre).latest.Since Event.createdAt key t)
    (hno : ∀ mid c rest, post = mid ++ c :: rest → ¬ Vacates (run rl (pre ++ mid)) c key) :
    (run rl (pre ++ post)).latest.Since Event.createdAt key t := by
  induction post using List.reverseRecOn with
  | nil => simpa using h
  | append_singleton mid c ih =>
    have hmid := ih (fun p d rest he => hno p d (rest ++ [c]) (by simp [he]))
    obtain ⟨hv, hf⟩ := run_inOrder (pre ++ mid)
    obtain ⟨hv', _, hmove⟩ := step_moves hv hf c
    rw [← List.append_assoc, run_step]
    refine hmid.move hmove (fun hnone => hno mid c [] rfl ⟨?_, (App.latest_eq_none hv').mp hnone⟩)
    obtain ⟨e, he, _⟩ := hmid
    exact ⟨e, (App.latest_eq_some hv).mp he⟩

/-- Over any calls, replaceable events are a map in which the newest wins. -/
theorem newest_replaceable_kept (calls : List (Call rl)) :
    (∀ i j e e', (i, .event e) ∈ (run rl calls).records → (j, .event e') ∈ (run rl calls).records →
      (e.kind = 0 ∨ e.kind = 3 ∨ (10000 ≤ e.kind ∧ e.kind < 20000) ∨
        (30000 ≤ e.kind ∧ e.kind < 40000)) →
      e.author = e'.author → e.kind = e'.kind →
      (30000 ≤ e.kind ∧ e.kind < 40000 → e.getTagContent (str "d") = e'.getTagContent (str "d")) →
      i = j ∧ e = e') ∧
    (∀ pre c post ev, calls = pre ++ c :: post → c.publishes = some ev →
      (c.result (run rl pre)).isOk = true →
      replaceable ev = true →
      (∀ mid d rest, post = mid ++ d :: rest →
        ¬ Vacates (run rl (pre ++ c :: mid)) d ev.replaceKey) →
      ∃ e, (run rl calls).HoldsUnder ev.replaceKey e ∧ ev.createdAt ≤ e.createdAt) ∧
    (∀ c ev e, c.publishes = some ev → replaceable ev = true →
      (run rl calls).HoldsUnder ev.replaceKey e →
      ev.createdAt < e.createdAt → step (run rl calls) c = run rl calls) ∧
    ∀ c ev i e, c.publishes = some ev → (i, .event e) ∈ (run rl calls).records →
      ¬ (replaceable e = true ∧ replaceable ev = true ∧ e.replaceKey = ev.replaceKey) →
      (i, .event e) ∈ (step (run rl calls) c).records := by
  obtain ⟨hv, hf⟩ := run_inOrder calls
  refine ⟨fun i j e e' hi hj hkind ha hk hd => ?_, fun pre c post ev hcalls hc hok hrep hno => ?_,
    fun c ev e hc hrep he ht => ?_, fun c ev i e hc he hno => ?_⟩
  · exact hv.same_key hi hj (replaceable_iff.mpr hkind) (replaceable_iff.mpr (hk ▸ hkind))
      (replaceKey_eq_iff.mpr ⟨ha, hk, hd⟩)
  · obtain ⟨hvp, hfp⟩ := run_inOrder pre
    have hsplit : calls = (pre ++ [c]) ++ post := by simp [hcalls]
    have hpub : (run rl (pre ++ [c])).latest.Since Event.createdAt ev.replaceKey ev.createdAt := by
      rw [run_step]
      rcases publish_cases hvp hfp hc with ⟨herr, _⟩ | t
      · rw [herr] at hok
        cases hok
      · have hl := t.latest
        rw [if_pos hrep] at hl
        exact hl ▸ LatestMap.offer_since _ _
    have hkept : (run rl ((pre ++ [c]) ++ post)).latest.Since Event.createdAt ev.replaceKey
        ev.createdAt := by
      apply since_kept hpub
      intro mid d rest he
      rw [List.append_assoc, List.singleton_append]
      exact hno mid d rest he
    rw [← hsplit] at hkept
    obtain ⟨e, he, ht⟩ := hkept
    exact ⟨e, (App.latest_eq_some hv).mp he, ht⟩
  · rcases publish_cases hv hf hc with ⟨_, hsame⟩ | t
    · exact hsame
    · exact t.older e he hrep ht
  · rcases publish_cases hv hf hc with ⟨_, hsame⟩ | t
    · rw [hsame]
      exact he
    · exact t.keeps i e he hno

def profile : Event := { note with kind := 0 }

def laterProfile : Event := { laterNote with kind := 0 }

theorem profile_indexed : profile.Indexed silentRelay.ext.hasher := rfl

theorem laterProfile_indexed : laterProfile.Indexed silentRelay.ext.hasher := rfl

/-- The next profile takes the place of the first. -/
theorem later_profile_kept :
    let calls : List (Call silentRelay) := [.publish .zeros profile none profile_indexed,
      .publish .zeros laterProfile none laterProfile_indexed]
    ∃ e, (run silentRelay calls).HoldsUnder profile.replaceKey e ∧
      profile.createdAt ≤ e.createdAt := by
  intro calls
  have hlast : (run silentRelay calls).records = [(2, .event laterProfile)] := by decide +kernel
  apply (newest_replaceable_kept calls).2.1 [] _ _ profile rfl rfl (by decide +kernel) rfl
  intro mid d rest he
  cases mid with
  | nil =>
    cases he
    intro hvacates
    have hheld : (run silentRelay calls).HoldsUnder profile.replaceKey laterProfile :=
      ⟨⟨2, hlast ▸ List.mem_singleton_self _⟩, rfl, rfl⟩
    exact hvacates.2 laterProfile hheld
  | cons => simp at he

end Call

end NostrServer
