import NostrServer.Lib.Replay
import NostrServer.Acknowledge
import NostrServer.Counting
import NostrServer.Replaceable

namespace NostrServer
open Docdb

variable {rl : Relay}

/-- The event takes the other out of the storage. -/
def Event.Replaces (d e : Event) : Prop :=
  (replaceable d = true ∧ replaceable e = true ∧ d.replaceKey = e.replaceKey) ∨ d.Deletes e

/-- How a replica reads the published events. -/
def replica : Journal Event := ⟨fun e => ¬ e.ephemeral, Event.Replaces⟩

theorem Event.Replaces.of_deletion {d e : Event} (hk : d.kind = Kind.eventDeletion) :
    d.Replaces e ↔ d.Deletes e := by
  constructor
  · rintro (⟨hr, -, -⟩ | hd)
    · rw [App.not_replaceable_deletion hk] at hr
      cases hr
    · exact hd
  · exact Or.inr

theorem Event.Replaces.of_other {d e : Event} (hk : d.kind ≠ Kind.eventDeletion) :
    d.Replaces e ↔ replaceable d = true ∧ replaceable e = true ∧ d.replaceKey = e.replaceKey := by
  constructor
  · rintro (h | hd)
    · exact h
    · exact absurd hd.1 hk
  · exact Or.inl

namespace App

/-- The stored events, without their numbers. -/
def eventSet (a : App rl) : Set Event := {e | e ∈ a.events}

theorem mem_eventSet {a : App rl} : x ∈ a.eventSet ↔ ∃ i, (i, .event x) ∈ a.records := mem_events

theorem eventSet_same {a b : App rl} (h : a.records = b.records) : a.eventSet = b.eventSet := by
  simp only [eventSet, events, h]

/-- A put enters the event if what it takes out is what the event replaces. -/
theorem Wrote.eventSet {a a' : App rl} {ev : Event} {old new : DocID}
    (w : Wrote a a' (.event ev) old new) (hkept : ¬ ev.ephemeral)
    (hold : ∀ i e, (i, .event e) ∈ a.records → (i = old ↔ ev.Replaces e)) :
    a'.eventSet = replica.enter a.eventSet ev := by
  ext x
  rw [mem_eventSet]
  constructor
  · rintro ⟨i, hi⟩
    rcases (w.mem _).mp hi with he | ⟨hi, hne⟩
    · cases he
      exact Or.inl ⟨rfl, hkept⟩
    · exact Or.inr ⟨mem_eventSet.mpr ⟨i, hi⟩, fun h => hne ((hold i x hi).mpr h.2)⟩
  · rintro (⟨rfl, -⟩ | ⟨hx, hno⟩)
    · exact ⟨new, (w.mem _).mpr (Or.inl rfl)⟩
    · obtain ⟨i, hi⟩ := mem_eventSet.mp hx
      exact ⟨i, (w.mem _).mpr (Or.inr ⟨hi, fun ho => hno ⟨hkept, (hold i x hi).mp ho⟩⟩)⟩

/-- What `doc_to_replace` finds is the event of the same key. -/
theorem replaces_of_docToReplace {a : App rl} (hv : a.Valid) {ev : Event} {old : DocID}
    (hk : ev.kind ≠ Kind.eventDeletion) (hd : a.docToReplace ev = some old) (i : DocID)
    (e : Event) (hi : (i, .event e) ∈ a.records) : i = old ↔ ev.Replaces e := by
  rw [Event.Replaces.of_other hk]
  rcases a.docToReplace_spec ev with ⟨hd', _⟩ | ⟨hd', hno⟩ | ⟨j, e', hd', hj, hr', hr, hkey, _⟩
  · cases hd'.symm.trans hd
  · cases hd'.symm.trans hd
    constructor
    · intro h
      exact absurd h (number_pos hi)
    · rintro ⟨hr, hre, hkey⟩
      exact absurd hkey.symm (hno hr i e hi hre)
  · cases hd'.symm.trans hd
    constructor
    · rintro rfl
      cases same_record a.ids_nodup hi hj rfl
      exact ⟨hr, hr', hkey.symm⟩
    · rintro ⟨_, hre, hkey'⟩
      exact (hv.same_key hi hj hre hr' (hkey'.symm.trans hkey.symm)).1

/-- Putting a file leaves the events alone. -/
theorem Wrote.eventSet_attachment {a a' : App rl} {att : Attachment} {new : DocID}
    (w : Wrote a a' (.attachment att) 0 new) : a'.eventSet = a.eventSet := by
  ext x
  rw [mem_eventSet, mem_eventSet]
  constructor
  · rintro ⟨i, hi⟩
    rcases (w.mem _).mp hi with he | ⟨hi, _⟩
    · cases he
    · exact ⟨i, hi⟩
  · rintro ⟨i, hi⟩
    exact ⟨i, (w.mem _).mpr (Or.inr ⟨hi, number_pos hi⟩)⟩

/-- What is free to be put has an id that no other stored event has. -/
theorem Wrote.fresh_id {a a' : App rl} {ev : Event} {old new : DocID}
    (w : Wrote a a' (.event ev) old new) (hi : (i, .event e) ∈ a.records) (hne : i ≠ old) :
    e.id ≠ ev.id :=
  fun hid => not_taken w.free hi hne _ (id_key _ ev) (hid ▸ id_key _ e)

end App

namespace Server

/-- What a step hands to the publisher it enters in the storage, and nothing else. An
event that is stored had an id that was not. -/
inductive Journaled (sv sv' : Server rl) : Prop where
  | still (published : sv'.app.published = sv.app.published)
      (events : sv'.app.eventSet = sv.app.eventSet)
  | entered (e : Event) (source : Option Nat)
      (published : sv'.app.published = sv.app.published ++ [(e, source)])
      (events : sv'.app.eventSet = replica.enter sv.app.eventSet e)
      (fresh : ¬ e.ephemeral → ∀ x ∈ sv.app.events, x.id ≠ e.id)

theorem step_journaled (sv : Server rl) (h : sv.Regular) (x : Input) (hx : sv.SpellsTarget x) :
    Journaled sv (sv.step x) := by
  have hm := sv.step_moved h.valid x
  generalize sv.step x = sv' at hm ⊢
  cases hm with
  | still _ app peers => exact .still (by rw [app]) (by rw [app])
  | gc mem =>
    have hc := sv.app.runAttachmentGc_collected h.valid h.filed mem
    refine .still hc.published (Set.ext fun y => ?_)
    rw [App.mem_eventSet, App.mem_eventSet]
    exact exists_congr (fun i => hc.events i y)
  | message conn f c p s' peer effect app peers =>
    have same (ha : s'.app.Same sv.app) : Journaled sv sv' :=
      .still (by rw [app, ha.published]) (by rw [app, App.eventSet_same ha.records])
    have unseen {ev : Event} (hz : sv.app.findEventById ev.id = 0) :
        ∀ y ∈ sv.app.events, y.id ≠ ev.id := by
      intro y hy
      obtain ⟨i, hi⟩ := App.mem_events.mp hy
      exact (sv.app.findEventById_eq_zero ev.id).mp hz i y hi
    -- the header of a file enters and takes out nothing
    have header {ev : Event} {old new : DocID} {a : App rl} (hk : ev.kind = Kind.fileHeader)
        (hd : sv.app.docToReplace ev = some old) (w : App.Wrote sv.app a (.event ev) old new) :
        a.eventSet = replica.enter sv.app.eventSet ev ∧ ∀ y ∈ sv.app.events, y.id ≠ ev.id := by
      have hkept : ¬ ev.ephemeral := by
        rw [Event.ephemeral, hk]
        decide
      have hother : ev.kind ≠ Kind.eventDeletion := by
        rw [hk]
        decide
      refine ⟨w.eventSet hkept (App.replaces_of_docToReplace h.valid hother hd), fun y hy => ?_⟩
      obtain ⟨i, hi⟩ := App.mem_events.mp hy
      cases (App.docToReplace_fileHeader sv.app hk).symm.trans hd
      exact w.fresh_id hi (App.number_pos hi)
    cases effect with
    | quiet q => exact same q.app
    | awaits m id ev hc passed l hchk ha => exact same ha
    | seen ev hpend ha => exact same ha
    | dropped ha => exact same ha
    | broadcast m id ev hc passed hk hs ha hpub =>
      have hr : s'.app.records = sv.app.records := by simp [App.records, hs, session]
      refine .entered ev (some conn) (app ▸ hpub) ?_ (fun hno => absurd hk hno)
      have hnot : ¬ replica.kept ev := fun hno => hno hk
      rw [app, App.eventSet_same hr, replica.enter_of_not_kept hnot]
    | published m id ev old new hc passed l hk hd w hpub =>
      refine .entered ev (some conn) (app ▸ hpub) ?_ (fun _ => unseen (passed.fresh rfl))
      rw [app]
      exact w.eventSet l.kind (App.replaces_of_docToReplace h.valid hk hd)
    | deleted m id ev e i new hc passed l hk ht hid hauth w hpub =>
      refine .entered ev (some conn) (app ▸ hpub) ?_ (fun _ => unseen (passed.fresh rfl))
      rw [app]
      refine w.eventSet l.kind (fun j y hj => ?_)
      rw [Event.Replaces.of_deletion hk]
      obtain ⟨ev', hparsed, hev⟩ := passed.parsed
      have hhex : HexText 32 (ev.getTagContent (str "e")) := by
        rcases (sv.session p).trust_cases ev' with htr | ⟨_, _, htr⟩ <;>
          rw [hev, htr] at hid hauth hk ⊢ <;>
          exact hx m ev' hc hparsed hk ⟨e, ⟨i, ht⟩, hid, hauth⟩
      have hspells : Spells (ev.getTagContent (str "e")) e.id :=
        (fromHex_eq_iff hhex _ _).mp hid.symm
      constructor
      · rintro rfl
        cases same_record sv.app.ids_nodup hj ht rfl
        exact ⟨hk, hauth.symm, hspells⟩
      · rintro ⟨_, _, hnames⟩
        have hyid : y.id = e.id := (hnames.names.2 (.ofNat 0)).symm.trans (hspells.names.2 _)
        exact (h.valid.same_event hj ht hyid).1
    | reused data ev old new hfr hpend hh hatt hd w hpub =>
      have hk : ({ ev with nip97 := true } : Event).kind = Kind.fileHeader :=
        (h.pending conn p peer ev hpend).2
      obtain ⟨hset, hfresh⟩ := header hk hd w
      exact .entered _ none (app ▸ hpub) (by rw [app]; exact hset) (fun _ => hfresh)
    | uploaded data ev old new new' a hfr hpend hh hatt hd w w' hpub =>
      have hk : ({ ev with nip97 := true } : Event).kind = Kind.fileHeader :=
        (h.pending conn p peer ev hpend).2
      obtain ⟨hset, hfresh⟩ := header hk hd w
      exact .entered _ none (app ▸ hpub) (by rw [app, w'.eventSet_attachment]; exact hset)
        (fun _ => hfresh)

/-- The storage is what the published events make of it, and none came with the id of
a stored one to be stored again. -/
theorem run_replica (h : (machine rl).Throughout SpellsTarget inputs) :
    (run rl inputs).app.eventSet =
        replica.replay ((run rl inputs).app.published.map Prod.fst) ∧
      ∀ before e after, (run rl inputs).app.published.map Prod.fst = before ++ e :: after →
        ¬ e.ephemeral → ∀ x ∈ replica.replay before, x.id ≠ e.id := by
  refine Journal.replayed (m := machine rl) (fun sv => sv.app.eventSet)
    (fun sv => sv.app.published.map Prod.fst)
    (fun s e => ¬ e.ephemeral → ∀ x ∈ s, x.id ≠ e.id) ?_ rfl (fun pre x hx => ?_) h
  · refine Set.eq_empty_of_forall_notMem (fun x hx => ?_)
    obtain ⟨i, hi⟩ := App.mem_eventSet.mp hx
    have hnone : (start rl).app.records = [] := rl.db.records_empty
    rw [show (machine rl).start = start rl from rfl, hnone] at hi
    cases hi
  · rw [(machine rl).run_snoc]
    cases (run rl pre).step_journaled (run_regular pre) x hx with
    | still hpub hset => exact Or.inl ⟨congrArg (List.map Prod.fst) hpub, hset⟩
    | entered e source hpub hset hfresh =>
      refine Or.inr ⟨e, ?_, hset, hfresh⟩
      change ((run rl pre).step x).app.published.map Prod.fst = _
      rw [hpub, List.map_append]
      rfl

/-- What is stored is what was published, save ephemeral events and those that a later
one took the place of or had deleted. -/
theorem stored_iff_published (inputs : List Input)
    (h : (machine rl).Throughout SpellsTarget inputs) (e : Event) :
    e ∈ (run rl inputs).app.events ↔
      ∃ before after, (run rl inputs).app.published.map Prod.fst = before ++ e :: after ∧
        ¬ e.ephemeral ∧ ∀ d ∈ after, ¬ d.ephemeral → ¬ d.Replaces e := by
  have hset := (run_replica h).1
  rw [Set.ext_iff] at hset
  exact (hset e).trans replica.mem_replay

/-- The messages of this relay spell what they delete. -/
theorem deletionRelay_spells (sv : Server (deletionRelay deletionMessage)) (message : Structured) :
    sv.SpellsTarget (message.sent Memory.zeros) := by
  intro m ev hc hparsed hk _
  obtain ⟨msg, hm, -, rfl⟩ := hc.listed
  rcases List.mem_pair.mp hm with rfl | rfl
  · have hev : (Event.fromStructured (deletionRelay deletionMessage).ext Memory.zeros.event
        (noteMessage.item 1)).toOption = some note := by decide +kernel
    rw [hparsed] at hev
    cases hev
    exact absurd hk (by decide)
  · have hev : (Event.fromStructured (deletionRelay deletionMessage).ext Memory.zeros.event
        (deletionMessage.item 1)).toOption = some noteDeletion := by decide +kernel
    rw [hparsed] at hev
    cases hev
    decide +kernel

def noteDeleted : List Input := noteSent ++ [deletionMessage.sent Memory.zeros]

theorem noteDeleted_spelled : (machine (deletionRelay deletionMessage)).Throughout SpellsTarget
    noteDeleted :=
  ((Machine.throughout_nil.snoc trivial).snoc (deletionRelay_spells _ _)).snoc
    (deletionRelay_spells _ _)

theorem deleted_note_replayed :
    note ∉ (run (deletionRelay deletionMessage) noteDeleted).app.events ∧
    noteDeletion ∈ (run (deletionRelay deletionMessage) noteDeleted).app.events := by
  have hlog : (run (deletionRelay deletionMessage) noteDeleted).app.published.map Prod.fst =
      [note, noteDeletion] := by decide +kernel
  have hnext (before after : List Event) (h : [note, noteDeletion] = before ++ note :: after) :
      noteDeletion ∈ after := by
    rcases before with _ | ⟨_, _ | ⟨_, before⟩⟩
    · cases h
      exact List.mem_singleton_self _
    · have hsame : noteDeletion = note := (List.cons.inj (List.cons.inj h).2).1
      exact absurd hsame (by decide +kernel)
    · exact absurd (congrArg List.length h) (by simp)
  have hreplaces : noteDeletion.Replaces note := Or.inr (by decide +kernel)
  constructor
  · intro h
    obtain ⟨before, after, he, -, hlater⟩ :=
      (stored_iff_published _ noteDeleted_spelled note).mp h
    exact hlater noteDeletion (hnext before after (hlog ▸ he)) (by decide +kernel) hreplaces
  · refine (stored_iff_published _ noteDeleted_spelled noteDeletion).mpr
      ⟨[note], [], hlog, by decide +kernel, fun _ h => absurd h List.not_mem_nil⟩

/-- No event is published twice to be stored, unless it was taken out in between. -/
theorem published_once (inputs : List Input) (h : (machine rl).Throughout SpellsTarget inputs) :
    ∀ before e between e' after,
      (run rl inputs).app.published.map Prod.fst = before ++ e :: between ++ e' :: after →
      e.id = e'.id → ¬ e.ephemeral → ¬ e'.ephemeral →
      ∃ d ∈ between, ¬ d.ephemeral ∧ d.Replaces e := by
  intro before e between e' after hlog hid he he'
  by_contra hno
  have hstays : e ∈ replica.replay (before ++ e :: between) := by
    refine replica.mem_replay.mpr ⟨before, between, rfl, he, fun d hd hk hr => ?_⟩
    exact hno ⟨d, hd, hk, hr⟩
  exact (run_replica h).2 _ _ _ hlog he' e hstays hid

/-- The note is sent again once it is deleted. -/
theorem note_published_again : ∃ d ∈ [noteDeletion], ¬ d.ephemeral ∧ d.Replaces note :=
  published_once (noteDeleted ++ [noteMessage.sent Memory.zeros])
    (noteDeleted_spelled.snoc (deletionRelay_spells _ _)) [] note [noteDeletion] note []
    (by decide +kernel) rfl (by decide +kernel) (by decide +kernel)

end Server

end NostrServer
