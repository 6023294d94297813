import NostrServer.Replaceable

namespace NostrServer
open Docdb

variable {rl : Relay}

/-- What docdb does with a put whose unique key another document owns. -/
inductive Resolution where
  | rejects | overwrites

namespace App
variable {a a' : App rl} {id old : DocID} {ev : Event}

/-- The documents besides `old` that own a unique key of the new one. -/
def owners (a : App rl) (d : EventOrAttachment) (old : DocID) : List DocID :=
  (a.records.filter (fun r => r.1 ≠ old ∧ ∃ k ∈ uniqueKeys rl.ext d, k ∈ uniqueKeys rl.ext r.2)).map
    Prod.fst

def eraseAll (a : App rl) (mem : IndexMemory) (ids : List DocID) : App rl :=
  ids.foldl (fun a i => a.erase mem i) a

def putBy (res : Resolution) (a : App rl) (mem : IndexMemory) (d : EventOrAttachment)
    (old : DocID) : Option (App rl) :=
  match res with
  | .rejects => a.put mem d old
  | .overwrites => (a.eraseAll mem (a.owners d old)).put mem d old

/-- A put that went through, whichever way: the document has a new number, and the one
it replaces is gone, as are the owners of its unique keys. -/
structure Put (a a' : App rl) (d : EventOrAttachment) (old id : DocID) : Prop where
  later : rl.db.rev a.storage < id ∧ id ≤ rl.db.rev a'.storage
  mem : ∀ r, r ∈ a'.records ↔ r = (id, d) ∨
    (r ∈ a.records ∧ r.1 ≠ old ∧ ∀ k ∈ uniqueKeys rl.ext d, k ∉ uniqueKeys rl.ext r.2)

theorem eraseAll_spec (mem : IndexMemory) (ids : List DocID) (a : App rl) :
    rl.db.rev a.storage ≤ rl.db.rev (a.eraseAll mem ids).storage ∧
    ∀ r, r ∈ (a.eraseAll mem ids).records ↔ r ∈ a.records ∧ r.1 ∉ ids := by
  induction ids generalizing a with
  | nil => exact ⟨Nat.le_refl _, fun r => by simp [eraseAll]⟩
  | cons i ids ih =>
    obtain ⟨hrev, hm⟩ := ih (a.erase mem i)
    have hrev' : rl.db.rev a.storage ≤ rl.db.rev (a.erase mem i).storage :=
      (rl.db.erase_records a.storage i).1
    refine ⟨Nat.le_trans hrev' hrev, fun r => ?_⟩
    rw [eraseAll, List.foldl_cons]
    refine (hm r).trans ?_
    rw [(a.erase_lost mem i).1.mem]
    simp [and_assoc]

theorem mem_owners {r : DocID × EventOrAttachment} (hr : r ∈ a.records) : r.1 ∉ a.owners d old ↔
    r.1 = old ∨ ∀ k ∈ uniqueKeys rl.ext d, k ∉ uniqueKeys rl.ext r.2 := by
  have hiff : r.1 ∈ a.owners d old ↔ r.1 ≠ old ∧ ∃ k ∈ uniqueKeys rl.ext d,
      k ∈ uniqueKeys rl.ext r.2 := by
    simp only [owners, List.mem_map, List.mem_filter, decide_eq_true_eq]
    constructor
    · rintro ⟨q, ⟨hq, ho⟩, he⟩
      exact same_record a.ids_nodup hq hr he ▸ ho
    · exact fun ho => ⟨r, ⟨hr, ho⟩, rfl⟩
  rw [hiff]
  by_cases h : r.1 = old <;> simp [h]

/-- A put goes through, except that a docdb that rejects does so when a key is taken. -/
theorem putBy_cases (res : Resolution) (a : App rl) (mem : IndexMemory) (d : EventOrAttachment)
    (old : DocID) :
    (res = .rejects ∧ a.putBy res mem d old = none ∧ Taken (uniqueKeys rl.ext) a.records d old) ∨
    ∃ a' id, a.putBy res mem d old = some a' ∧ Put a a' d old id ∧
      (res = .rejects → ¬ Taken (uniqueKeys rl.ext) a.records d old) := by
  cases res with
  | rejects =>
    cases h : a.put mem d old with
    | none => exact Or.inl ⟨rfl, h, put_none h⟩
    | some a' =>
      obtain ⟨id, w, _, hlater⟩ := put_later h
      refine Or.inr ⟨a', id, h,
        ⟨hlater, fun r => (w.mem r).trans (or_congr_right (and_congr_right (fun hr => ?_)))⟩,
        fun _ => w.free⟩
      exact (and_iff_left_of_imp (not_taken w.free hr)).symm
  | overwrites =>
    obtain ⟨hrev, hm⟩ := eraseAll_spec mem (a.owners d old) a
    have hfree : ¬ Taken (uniqueKeys rl.ext) (a.eraseAll mem (a.owners d old)).records d old := by
      rintro ⟨k, hk, r, hr, hne, hk'⟩
      obtain ⟨hr, ho⟩ := (hm r).mp hr
      rcases (mem_owners hr).mp ho with he | hno
      · exact hne he
      · exact hno k hk hk'
    obtain ⟨a', ha'⟩ := put_some hfree mem
    obtain ⟨id, w, _, hlater⟩ := put_later ha'
    refine Or.inr ⟨a', id, ha', ⟨⟨Nat.lt_of_le_of_lt hrev hlater.1, hlater.2⟩, fun r => ?_⟩,
      fun h => by cases h⟩
    rw [w.mem, hm, and_assoc]
    refine or_congr_right (and_congr_right (fun hr => ?_))
    rw [mem_owners hr]
    by_cases he : r.1 = old <;> simp [he]

theorem Put.valid (p : Put a a' (.event ev) old id) (hv : a.Valid) (hi : ev.Indexed rl.ext.hasher) :
    a'.Valid := by
  have hjoined (r) (hr : r ∈ a'.records) : r = (id, .event ev) ∨ (r ∈ a.records ∧
      ∀ k ∈ uniqueKeys rl.ext (.event ev), k ∉ uniqueKeys rl.ext r.2) :=
    ((p.mem r).mp hr).imp_right (fun hm => ⟨hm.1, hm.2.2⟩)
  refine ⟨hv.unique.joined hjoined, fun r hr e he => ?_⟩
  rcases hjoined r hr with rfl | ⟨hr, _⟩
  · cases he
    exact hi
  · exact hv.indexed r hr e he

end App

/-- A call of `App::publish` for a replaceable event of the key. -/
structure Rival (rl : Relay) (key : AuthorKindTagKey) where
  event : Event
  publisher : Option Nat
  indexed : event.Indexed rl.ext.hasher
  replaceable : replaceable event = true
  under : event.replaceKey = key

/-- `App::publish` asks for the document to replace and puts its event with that number later,
in any order among any number of callers. -/
structure Race (rl : Relay) (key : AuthorKindTagKey) where
  app : App rl
  /-- The calls between their two steps, with the number each was given. -/
  waiting : List (Rival rl key × DocID) := []
  /-- The events of the calls that have returned. -/
  returned : List Event := []

namespace Race
variable {key : AuthorKindTagKey} {a : App rl} {res : Resolution}

inductive Action (rl : Relay) (key : AuthorKindTagKey) where
  | read (call : Rival rl key)
  | put (caller : Nat) (mem : IndexMemory)

/-- `doc_to_replace`. With what is stored newer, the call is over. -/
def read (x : Race rl key) (call : Rival rl key) : Race rl key :=
  match x.app.docToReplace call.event with
  | none => { x with returned := x.returned ++ [call.event] }
  | some old => { x with waiting := x.waiting ++ [(call, old)] }

/-- `Storage::put`, and the event goes to the publisher unless that throws. -/
def put (res : Resolution) (x : Race rl key) (caller : Nat) (mem : IndexMemory) : Race rl key :=
  match x.waiting[caller]? with
  | some (call, old) =>
    { app := match x.app.putBy res mem (.event call.event) old with
        | some a => a.publishEvent call.event call.publisher
        | none => x.app
      waiting := x.waiting.eraseIdx caller
      returned := x.returned ++ [call.event] }
  | none => x

def step (res : Resolution) (x : Race rl key) : Action rl key → Race rl key
  | .read call => x.read call
  | .put caller mem => x.put res caller mem

def machine (res : Resolution) (key : AuthorKindTagKey)
    (a : App rl) : Machine (Race rl key) (Action rl key) :=
  ⟨{ app := a }, step res⟩

/-- The two steps in a row are what `App::publish` does. -/
theorem publish_alone (x : Race rl key) (call : Rival rl key) (mem : IndexMemory)
    (hd : x.app.docToReplace call.event = some old) :
    ((x.read call).put .rejects x.waiting.length mem).app =
      Call.step x.app (.publish mem call.event call.publisher call.indexed) := by
  have hk : call.event.kind ≠ Kind.eventDeletion := by
    intro hk
    have hr := replaceable_iff.mp call.replaceable
    rw [hk] at hr
    revert hr
    decide
  have hput : x.app.putBy .rejects mem (.event call.event) old =
      x.app.put mem (.event call.event) old := rfl
  have hread : (x.read call).waiting[x.waiting.length]? = some (call, old) := by simp [read, hd]
  have happ : (x.read call).app = x.app := by simp [read, hd]
  simp only [put, hread, happ, hput, Call.step, Call.result, App.publish, hd]
  cases x.app.put mem (.event call.event) old with
  | none => rfl
  | some a' => simp [hk]

/-- A put that meets a document its caller did not read leaves the newer of the two. -/
def Timely (res : Resolution) (x : Race rl key) : Action rl key → Prop
  | .read _ => True
  | .put caller _ => ∀ call old, x.waiting[caller]? = some (call, old) →
    match res with
    | .rejects => Taken (uniqueKeys rl.ext) x.app.records (.event call.event) old →
      ∃ e, x.app.HoldsUnder key e ∧ call.event.createdAt ≤ e.createdAt
    | .overwrites => ∀ i e, (i, .event e) ∈ x.app.records → i ≠ old → replaceable e = true →
      e.replaceKey = key →
      e.createdAt ≤ call.event.createdAt

/-- The event stored for the key is one of those whose calls have returned, or the one
stored before, and none of them is newer. -/
structure NewestKept (a : App rl) (x : Race rl key) : Prop where
  newest : ∀ ev, ev ∈ x.returned ∨ a.HoldsUnder key ev → ∃ e, x.app.HoldsUnder key e ∧
    ev.createdAt ≤ e.createdAt
  origin : ∀ e, x.app.HoldsUnder key e → e ∈ x.returned ∨ a.HoldsUnder key e

/-- What holds in any order of the steps. -/
structure Sound (a : App rl) (x : Race rl key) : Prop where
  valid : x.app.Valid
  given : ∀ call old, (call, old) ∈ x.waiting → old ≤ rl.db.rev x.app.storage ∧
    ∀ e, (old, .event e) ∈ x.app.records → e.createdAt ≤ call.event.createdAt
  origin : ∀ e, x.app.HoldsUnder key e → e ∈ x.returned ∨ a.HoldsUnder key e

theorem read_sound {x : Race rl key} (h : Sound a x) (call : Rival rl key) :
    Sound a (x.read call) := by
  unfold read
  rcases x.app.docToReplace_spec call.event with ⟨hd, _⟩ | ⟨hd, _⟩ | ⟨i, e', hd, hi, _, _, _, ht⟩
  · rw [hd]
    refine ⟨h.valid, h.given, fun e he => ?_⟩
    rcases h.origin e he with hr | ha
    · exact Or.inl (List.mem_append_left _ hr)
    · exact Or.inr ha
  · rw [hd]
    refine ⟨h.valid, fun call' old' hm => ?_, h.origin⟩
    rcases List.mem_append.mp hm with hm | hm
    · exact h.given call' old' hm
    · cases List.mem_singleton.mp hm
      exact ⟨Nat.zero_le _, fun e he => absurd rfl (App.number_pos he)⟩
  · rw [hd]
    refine ⟨h.valid, fun call' old' hm => ?_, h.origin⟩
    rcases List.mem_append.mp hm with hm | hm
    · exact h.given call' old' hm
    · cases List.mem_singleton.mp hm
      refine ⟨(rl.db.ids_bound x.app.storage _ hi).2, fun e he => ?_⟩
      cases same_record x.app.ids_nodup hi he rfl
      exact ht

/-- What is stored under the key after a put that went through is its event. -/
theorem held_after_put {x : Race rl key} {a' : App rl} {call : Rival rl key} {id : DocID}
    (p : App.Put x.app a' (.event call.event) old id) : a'.HoldsUnder key e ↔ e = call.event := by
  constructor
  · rintro ⟨⟨i, hi⟩, hr, hk⟩
    rcases (p.mem _).mp hi with he | ⟨_, _, hno⟩
    · cases he
      rfl
    · exact absurd (App.replaceable_key rl.ext hr hk)
        (hno _ (App.replaceable_key rl.ext call.replaceable call.under))
  · rintro rfl
    exact ⟨⟨id, (p.mem _).mpr (Or.inl rfl)⟩, call.replaceable, call.under⟩

theorem put_sound {x : Race rl key} (h : Sound a x) (res : Resolution) (caller : Nat)
    (mem : IndexMemory) :
    Sound a (x.put res caller mem) := by
  unfold put
  split
  · rename_i call old hw
    rcases x.app.putBy_cases res mem (.event call.event) old with ⟨_, hp, _⟩ | ⟨a', id, hp, p, _⟩
    · simp only [hp]
      refine ⟨h.valid, fun c o hm => h.given c o (List.mem_of_mem_eraseIdx hm), fun e he => ?_⟩
      rcases h.origin e he with hr | ha
      · exact Or.inl (List.mem_append_left _ hr)
      · exact Or.inr ha
    · simp only [hp]
      refine ⟨⟨(p.valid h.valid call.indexed).unique, (p.valid h.valid call.indexed).indexed⟩,
        fun c o hm => ?_, fun e he => ?_⟩
      · obtain ⟨hle, ht⟩ := h.given c o (List.mem_of_mem_eraseIdx hm)
        refine ⟨Nat.le_trans hle (Nat.le_of_lt (Nat.lt_of_lt_of_le p.later.1 p.later.2)),
          fun e he => ?_⟩
        rcases (p.mem _).mp he with heq | ⟨he, _⟩
        · exact absurd (Prod.mk.inj heq).1 (Nat.ne_of_lt (Nat.lt_of_le_of_lt hle p.later.1))
        · exact ht e he
      · have heq : e = call.event := (held_after_put p).mp he
        exact Or.inl (by simp [heq])
  · exact h

theorem step_sound {x : Race rl key} (h : Sound a x) (action : Action rl key) :
    Sound a (step res x action) := by
  cases action with
  | read call => exact read_sound h call
  | put caller mem => exact put_sound h res caller mem

theorem run_sound (hv : a.Valid) (actions : List (Action rl key)) :
    Sound a ((machine res key a).run actions) := by
  refine Machine.run_always (m := machine res key a) (P := Sound a) ?_
    (fun x action h => step_sound h action) actions
  exact ⟨hv, fun call old hm => absurd hm List.not_mem_nil, fun e he => Or.inr he⟩

/-- A read takes nothing away. -/
theorem read_newest {x : Race rl key} (h : Sound a x) (hn : NewestKept a x) (call : Rival rl key) :
    NewestKept a (x.read call) := by
  refine ⟨?_, (read_sound h call).origin⟩
  unfold read
  rcases x.app.docToReplace_spec call.event with
    ⟨hd, i, e, hi, hr, _, hk, ht⟩ | ⟨hd, _⟩ | ⟨i, e, hd, _⟩
  · rw [hd]
    rintro ev (hev | hev)
    · rcases List.mem_append.mp hev with hev | hev
      · exact hn.newest ev (Or.inl hev)
      · cases List.mem_singleton.mp hev
        exact ⟨e, ⟨⟨i, hi⟩, hr, hk.trans call.under⟩, Int64.le_of_lt ht⟩
    · exact hn.newest ev (Or.inr hev)
  · rw [hd]
    exact hn.newest
  · rw [hd]
    exact hn.newest

/-- The event stored before a timely put is no newer than the one put. -/
theorem held_older {x : Race rl key} (h : Sound a x) (ht : Timely res x (.put caller mem))
    {call : Rival rl key} (hw : x.waiting[caller]? = some (call, old)) (he : x.app.HoldsUnder key e)
    (hfree : res = .rejects → ¬ Taken (uniqueKeys rl.ext) x.app.records (.event call.event) old) :
    e.createdAt ≤ call.event.createdAt := by
  obtain ⟨⟨i, hi⟩, hr, hk⟩ := he
  by_cases hio : i = old
  · exact (h.given call old (List.mem_of_getElem? hw)).2 e (hio ▸ hi)
  · have htimely := ht call old hw
    cases res with
    | rejects =>
      refine absurd ⟨.replaceable key, ?_, _, hi, hio, ?_⟩ (hfree rfl)
      · exact App.replaceable_key rl.ext call.replaceable call.under
      · exact App.replaceable_key rl.ext hr hk
    | overwrites => exact htimely i e hi hio hr hk

theorem put_newest {x : Race rl key} (h : Sound a x) (hn : NewestKept a x)
    (ht : Timely res x (.put caller mem)) :
    NewestKept a (x.put res caller mem) := by
  refine ⟨?_, (put_sound h res caller mem).origin⟩
  unfold put
  split
  · rename_i call old hw
    rcases x.app.putBy_cases res mem (.event call.event) old with
      ⟨rfl, hp, htaken⟩ | ⟨a', id, hp, p, hfree⟩
    · simp only [hp]
      rintro ev (hev | hev)
      · rcases List.mem_append.mp hev with hev | hev
        · exact hn.newest ev (Or.inl hev)
        · cases List.mem_singleton.mp hev
          exact ht call old hw htaken
      · exact hn.newest ev (Or.inr hev)
    · simp only [hp]
      have hnow : a'.HoldsUnder key call.event := (held_after_put p).mpr rfl
      have before (ev : Event) (hev : ev ∈ x.returned ∨ a.HoldsUnder key ev) :
          ev.createdAt ≤ call.event.createdAt := by
        obtain ⟨e, he, hle⟩ := hn.newest ev hev
        exact Int64.le_trans hle (held_older h ht hw he hfree)
      rintro ev (hev | hev)
      · rcases List.mem_append.mp hev with hev | hev
        · exact ⟨call.event, hnow, before ev (Or.inl hev)⟩
        · cases List.mem_singleton.mp hev
          exact ⟨call.event, hnow, Int64.le_refl _⟩
      · exact ⟨call.event, hnow, before ev (Or.inr hev)⟩
  · exact hn.newest

/-- A put after which the newest is still there was timely. -/
theorem timely_of_newest {x : Race rl key} (h : Sound a x)
    (hn : NewestKept a (x.put res caller mem)) :
    Timely res x (.put caller mem) := by
  intro call old hw
  have hafter := hn.newest
  simp only [put, hw] at hafter
  rcases x.app.putBy_cases res mem (.event call.event) old with
    ⟨rfl, hp, htaken⟩ | ⟨a', id, hp, p, hfree⟩
  · simp only [hp] at hafter
    exact fun _ => hafter call.event (Or.inl (by simp))
  · simp only [hp] at hafter
    cases res with
    | rejects => exact fun htaken => absurd htaken (hfree rfl)
    | overwrites =>
      intro i e hi _ hr hk
      have hreturned : e ∈ x.returned ++ [call.event] ∨ a.HoldsUnder key e := by
        rcases h.origin e ⟨⟨i, hi⟩, hr, hk⟩ with hr | ha
        · exact Or.inl (List.mem_append_left _ hr)
        · exact Or.inr ha
      obtain ⟨e', he', hle⟩ := hafter e hreturned
      have heq : e' = call.event := (held_after_put p).mp he'
      exact heq ▸ hle

/-- In every state of a run the newest event of the calls that have returned is stored,
exactly when every put of the run is timely. -/
theorem newest_kept_iff (res : Resolution) (key : AuthorKindTagKey) (a : App rl) (hv : a.Valid)
    (actions : List (Action rl key)) :
    (∀ pre post, actions = pre ++ post → NewestKept a ((machine res key a).run pre)) ↔
      (machine res key a).Throughout (Timely res) actions := by
  apply Machine.always_iff_throughout (I := fun x => Sound a x ∧ NewestKept a x)
  · refine ⟨run_sound hv [], ?_, fun e he => Or.inr he⟩
    intro ev hev
    rcases hev with hev | hev
    · cases hev
    · exact ⟨ev, hev, Int64.le_refl _⟩
  · exact fun x hx => hx.2
  · intro x action hx ht
    refine ⟨step_sound hx.1 action, ?_⟩
    cases action with
    | read call => exact read_newest hx.1 hx.2 call
    | put caller mem => exact put_newest hx.1 hx.2 ht
  · intro x action hx hn
    cases action with
    | read call => trivial
    | put caller mem => exact timely_of_newest hx.1 hn

def emptyApp : App silentRelay := { storage := silentRelay.db.empty }

def older : Rival silentRelay Call.profile.replaceKey :=
  ⟨Call.profile, none, Call.profile_indexed, rfl, rfl⟩

def newer : Rival silentRelay Call.profile.replaceKey :=
  ⟨Call.laterProfile, none, Call.laterProfile_indexed, rfl, rfl⟩

theorem newest_missing {x : Race silentRelay Call.profile.replaceKey}
    (hr : x.app.records = [(i, .event Call.profile)]) (hn : Call.laterProfile ∈ x.returned) :
    ¬ NewestKept emptyApp x := by
  intro h
  obtain ⟨e, ⟨⟨j, hj⟩, _⟩, hle⟩ := h.newest Call.laterProfile (Or.inl hn)
  rw [hr, List.mem_singleton] at hj
  cases hj
  exact absurd hle (by decide)

/-- Both callers read before either puts: the first put loses to docdb's answer to the
second, whichever it is. -/
theorem newer_profile_lost :
    (¬ ∀ actions, ((machine .rejects Call.profile.replaceKey emptyApp).run actions).waiting = [] →
      NewestKept emptyApp ((machine .rejects Call.profile.replaceKey emptyApp).run actions)) ∧
    ¬ ∀ actions, ((machine .overwrites Call.profile.replaceKey emptyApp).run actions).waiting = [] →
      NewestKept emptyApp ((machine .overwrites Call.profile.replaceKey emptyApp).run actions) := by
  constructor
  · intro h
    let actions : List (Action silentRelay Call.profile.replaceKey) :=
      [.read newer, .read older, .put 1 .zeros, .put 0 .zeros]
    have hlast : ((machine .rejects Call.profile.replaceKey emptyApp).run actions).app.records =
        [(1, .event Call.profile)] := by decide +kernel
    have hboth : ((machine .rejects Call.profile.replaceKey emptyApp).run actions).returned =
        [Call.profile, Call.laterProfile] := by decide +kernel
    exact newest_missing hlast (by simp [hboth]) (h actions rfl)
  · intro h
    let actions : List (Action silentRelay Call.profile.replaceKey) :=
      [.read older, .read newer, .put 1 .zeros, .put 0 .zeros]
    have hlast : ((machine .overwrites Call.profile.replaceKey emptyApp).run actions).app.records =
        [(2, .event Call.profile)] := by decide +kernel
    have hboth : ((machine .overwrites Call.profile.replaceKey emptyApp).run actions).returned =
        [Call.laterProfile, Call.profile] := by decide +kernel
    exact newest_missing hlast (by simp [hboth]) (h actions rfl)

/-- One caller after the other. -/
theorem newer_profile_kept :
    NewestKept emptyApp ((machine .rejects Call.profile.replaceKey emptyApp).run
    [.read older, .put 0 .zeros, .read newer, .put 0 .zeros]) := by
  have hv : emptyApp.Valid := (Server.start_regular silentRelay).valid
  refine (newest_kept_iff .rejects _ emptyApp hv _).mpr ?_ _ [] (List.append_nil _).symm
  refine (((Machine.throughout_nil.snoc trivial).snoc ?_).snoc trivial).snoc ?_
  · intro call old hw
    cases hw
    exact fun h => absurd h (by decide +kernel)
  · intro call old hw
    cases hw
    exact fun h => absurd h (by decide +kernel)

end Race

end NostrServer
