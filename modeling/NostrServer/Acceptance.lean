import NostrServer.Acknowledge
import NostrServer.Nip05
import NostrServer.Replica

namespace NostrServer
open Docdb

variable {rl : Relay}

namespace App

/-- The storage has a place for the event: it is not older than what it replaces, its
NIP-05 name is nobody else's, and what it deletes is there and its author's. -/
structure Room (a : App rl) (mem : Memory) (ev : Event) : Prop where
  newest : replaceable ev = true → ∀ e ∈ a.events, replaceable e = true →
    e.replaceKey = ev.replaceKey → e.createdAt ≤ ev.createdAt
  name : ∀ name ∈ indexNip05Fn rl.ext (.event ev), ∀ e ∈ a.events,
    name ∈ indexNip05Fn rl.ext (.event e) → ev.Replaces e
  target : ev.kind = Kind.eventDeletion →
    ∃ e ∈ a.events, e.id = Session.deletionTarget mem ev ∧ e.author = ev.author

theorem Same.events {a b : App rl} (h : a.Same b) : a.events = b.events := by
  simp only [App.events, h.records]

theorem Same.room {a b : App rl} (h : a.Same b) : a.Room mem ev ↔ b.Room mem ev := by
  constructor
  · rintro ⟨hn, hname, ht⟩
    exact ⟨h.events ▸ hn, h.events ▸ hname, h.events ▸ ht⟩
  · rintro ⟨hn, hname, ht⟩
    exact ⟨h.events ▸ hn, h.events ▸ hname, h.events ▸ ht⟩

/-- Beside its id, only the name can keep an event from the place `doc_to_replace` finds. -/
theorem taken_iff_named {a : App rl} {old : DocID} (hv : a.Valid)
    (hk : ev.kind ≠ Kind.eventDeletion) (hfresh : ∀ e ∈ a.events, e.id ≠ ev.id)
    (hd : a.docToReplace ev = some old) :
    Taken (uniqueKeys rl.ext) a.records (.event ev) old ↔
      ∃ name ∈ indexNip05Fn rl.ext (.event ev), ∃ e ∈ a.events,
        name ∈ indexNip05Fn rl.ext (.event e) ∧ ¬ ev.Replaces e := by
  constructor
  · rintro ⟨k, hk', ⟨i, d⟩, hr, hne, hkd⟩
    cases k with
    | ids x =>
      obtain ⟨_, he, rfl⟩ := holds_id hk'
      cases he
      obtain ⟨e, rfl, hid⟩ := holds_id hkd
      exact absurd hid (hfresh e (mem_events.mpr ⟨i, hr⟩))
    | replaceable key =>
      obtain ⟨_, he, hrep, rfl⟩ := holds_replaceable.mp hk'
      cases he
      obtain ⟨e, rfl, hrep', hkey⟩ := holds_replaceable.mp hkd
      have hreplaces : ev.Replaces e := (Event.Replaces.of_other hk).mpr ⟨hrep, hrep', hkey⟩
      exact absurd ((replaces_of_docToReplace hv hk hd i e hr).mpr hreplaces) hne
    | attachments x => simp [uniqueKeys] at hk'
    | nip05 name =>
      have hname := holds_nip05.mp hkd
      cases d with
      | attachment att => exact absurd hname List.not_mem_nil
      | event e =>
        refine ⟨name, holds_nip05.mp hk', e, mem_events.mpr ⟨i, hr⟩, hname, fun hreplaces => ?_⟩
        exact hne ((replaces_of_docToReplace hv hk hd i e hr).mpr hreplaces)
  · rintro ⟨name, hname, e, he, hname', hno⟩
    obtain ⟨i, hi⟩ := mem_events.mp he
    refine ⟨.nip05 name, holds_nip05.mpr hname, _, hi, fun ho => hno ?_, holds_nip05.mpr hname'⟩
    exact (replaces_of_docToReplace hv hk hd i e hi).mp ho

/-- `publish` stores what there is room for, and leaves everything else as it is. -/
theorem publish_room {a : App rl} (hv : a.Valid) (hk : ev.kind ≠ Kind.eventDeletion)
    (hfresh : ∀ e ∈ a.events, e.id ≠ ev.id) (mem : Memory) (src : Option Nat) :
    (a.Room mem ev ∧ ∃ a' old new, a.publish (mem.index 0) ev src = .ok a' ∧
      Wrote a a' (.event ev) old new ∧ a'.published = a.published ++ [(ev, src)]) ∨
    (¬ a.Room mem ev ∧ (a.publish (mem.index 0) ev src = .ok a ∨
      ∃ e, a.publish (mem.index 0) ev src = .error e)) := by
  cases hd : a.docToReplace ev with
  | none =>
    refine Or.inr ⟨fun room => ?_, Or.inl (by simp [publish, hd])⟩
    rcases a.docToReplace_spec ev with ⟨_, i, e, he, hr, hr', hkey, hlt⟩ | ⟨hd', _⟩ | ⟨i, e, hd', _⟩
    · have hle := room.newest hr' e (mem_events.mpr ⟨i, he⟩) hr hkey
      exact absurd hlt (Int64.not_lt.mpr hle)
    · cases hd'.symm.trans hd
    · cases hd'.symm.trans hd
  | some old =>
    have hnewest : replaceable ev = true → ∀ e ∈ a.events, replaceable e = true →
        e.replaceKey = ev.replaceKey → e.createdAt ≤ ev.createdAt := by
      intro hr e he hr' hkey
      obtain ⟨i, hi⟩ := mem_events.mp he
      rcases a.docToReplace_spec ev with ⟨hd', _⟩ | ⟨_, hno⟩ | ⟨j, e', hd', hj, _, _, hkey', hle⟩
      · cases hd'.symm.trans hd
      · exact absurd hkey (hno hr i e hi hr')
      · cases hd'.symm.trans hd
        have hreplaces : ev.Replaces e := (Event.Replaces.of_other hk).mpr ⟨hr, hr', hkey.symm⟩
        obtain rfl := (replaces_of_docToReplace hv hk hd i e hi).mpr hreplaces
        cases same_record a.ids_nodup hi hj rfl
        exact hle
    have hroom : a.Room mem ev ↔ ¬ Taken (uniqueKeys rl.ext) a.records (.event ev) old := by
      rw [taken_iff_named hv hk hfresh hd]
      constructor
      · rintro room ⟨name, hname, e, he, hname', hno⟩
        exact hno (room.name name hname e he hname')
      · intro hno
        refine ⟨hnewest, fun name hname e he hname' => ?_, fun h => absurd h hk⟩
        by_contra hreplaces
        exact hno ⟨name, hname, e, he, hname', hreplaces⟩
    unfold publish
    simp only [hd]
    cases hput : a.put (mem.index 0) (.event ev) old with
    | none =>
      refine Or.inr ⟨fun room => hroom.mp room (put_none hput), Or.inr ⟨_, rfl⟩⟩
    | some a' =>
      obtain ⟨new, w, hpub⟩ := put_wrote hput
      have hkind : (if ev.kind = Kind.eventDeletion then
          { a'.publishEvent ev src with gcStarts := (a'.publishEvent ev src).gcStarts + 1 }
          else a'.publishEvent ev src) = a'.publishEvent ev src := if_neg hk
      refine Or.inl ⟨hroom.mpr w.free, a'.publishEvent ev src, old, new, ?_, ?_, ?_⟩
      · simp only [hkind]
      · exact ⟨w.fresh, w.mem, w.attachments, w.free⟩
      · simp [publishEvent, hpub]

end App

namespace Session

/-- What is free to come in by a deletion request is what it deletes. -/
theorem eventDeletion_room (s : Session rl) (hv : s.app.Valid) {ev : Event}
    (hk : ev.kind = Kind.eventDeletion) (hfresh : ∀ e ∈ s.app.events, e.id ≠ ev.id)
    (mem : Memory) (conn : Nat) :
    (s.app.Room mem ev ∧ ∃ a old new,
      s.eventDeletion mem conn ev = .ok ({ s with app := a }.send (.ok ev.id.toHex true [])) ∧
      App.Wrote s.app a (.event ev) old new ∧
      a.published = s.app.published ++ [(ev, some conn)]) ∨
    (¬ s.app.Room mem ev ∧
      (s.eventDeletion mem conn ev = .ok (s.send (.ok ev.id.toHex true [])) ∨
        ∃ e, s.eventDeletion mem conn ev = .error e)) := by
  have hplain := App.not_replaceable_deletion hk
  rcases s.eventDeletion_spec hv mem conn ev with
    ⟨hno, he⟩ | ⟨i, e, hmem, hid, hauth, he⟩ |
    ⟨i, e, hmem, hid, hauth, ⟨he, ht⟩ | ⟨a, new, he, w, hpub⟩⟩
  · refine Or.inr ⟨fun room => ?_, Or.inl he⟩
    obtain ⟨e, hmem, hid, -⟩ := room.target hk
    obtain ⟨i, hi⟩ := App.mem_events.mp hmem
    exact hno i e hi hid
  · refine Or.inr ⟨fun room => ?_, Or.inr ⟨_, he⟩⟩
    obtain ⟨e', hmem', hid', hauth'⟩ := room.target hk
    obtain ⟨j, hj⟩ := App.mem_events.mp hmem'
    obtain ⟨-, rfl⟩ := hv.same_event hmem hj (hid.trans hid'.symm)
    exact hauth hauth'
  · obtain ⟨j, e', hj, hid'⟩ := App.taken_plain hplain ht
    exact absurd hid' (hfresh e' (App.mem_events.mpr ⟨j, hj⟩))
  · refine Or.inl ⟨⟨fun hr => ?_, fun name hname => ?_, fun _ => ?_⟩, a, i, new, he, w, hpub⟩
    · rw [hplain] at hr
      cases hr
    · have hkind : ev.kind ≠ Kind.metadata := by
        rw [hk]
        decide
      simp [indexNip05Fn, hkind] at hname
    · exact ⟨e, App.mem_events.mpr ⟨i, hmem⟩, hid, hauth⟩

def answeredId (id : Str) (ev : Event) : Str :=
  if ev.kind = Kind.eventDeletion then ev.id.toHex else id

/-- The end of `on_event_generic` stores what there is room for and leaves the rest. -/
theorem store_room (s : Session rl) (hv : s.app.Valid) {ev : Event}
    (hfresh : ∀ e ∈ s.app.events, e.id ≠ ev.id) (mem : Memory) (conn : Nat) (id : Str) :
    (s.app.Room mem ev ∧ ∃ a old new,
      s.store mem conn false id ev (publishVerified mem conn) =
        .ok ({ s with app := a }.send (.ok (answeredId id ev) true [])) ∧
      App.Wrote s.app a (.event ev) old new ∧
      a.published = s.app.published ++ [(ev, some conn)]) ∨
    (¬ s.app.Room mem ev ∧
      (s.store mem conn false id ev (publishVerified mem conn) =
        .ok (s.send (.ok (answeredId id ev) true [])) ∨
      ∃ e, s.store mem conn false id ev (publishVerified mem conn) = .error e)) := by
  by_cases hk : ev.kind = Kind.eventDeletion
  · have hstore : s.store mem conn false id ev (publishVerified mem conn) =
        s.eventDeletion mem conn ev := (if_pos hk).trans rfl
    rw [hstore, show answeredId id ev = ev.id.toHex from if_pos hk]
    exact s.eventDeletion_room hv hk hfresh mem conn
  · have hstore : s.store mem conn false id ev (publishVerified mem conn) =
        publishVerified mem conn id ev s := if_neg hk
    rw [hstore, show answeredId id ev = id from if_neg hk]
    unfold publishVerified
    rcases App.publish_room hv hk hfresh mem (some conn) with
      ⟨room, a, old, new, he, w, hpub⟩ | ⟨hno, he | ⟨e, he⟩⟩
    · exact Or.inl ⟨room, a, old, new, by rw [he], w, hpub⟩
    · exact Or.inr ⟨hno, Or.inl (by rw [he])⟩
    · exact Or.inr ⟨hno, Or.inr ⟨e, by rw [he]⟩⟩

/-- What lets the event of a message into the storage. -/
structure Accepts (s : Session rl) (c : Circumstance) (id : Str) (ev : Event) : Prop where
  fresh : ∀ e ∈ s.app.events, e.id ≠ ev.id
  paced : (s.limited c.now).1 = true
  worked : s.peer.noLimit = false → 0 < rl.options.pow → checkPow rl.options.pow id = true
  signed : ev.verify rl.ext = true
  letIn : LetIn s c ev
  room : s.app.Room c.mem ev

theorem unseen_iff (a : App rl) (id : ID) :
    a.findEventById id = 0 ↔ ∀ e ∈ a.events, e.id ≠ id := by
  rw [a.findEventById_eq_zero]
  constructor
  · intro h e he
    obtain ⟨i, hi⟩ := App.mem_events.mp he
    exact h i e hi
  · intro h i e hi
    exact h e (App.mem_events.mpr ⟨i, hi⟩)

/-- What is accepted is stored, handed out and answered with true. -/
theorem onEvent_accepted (s : Session rl) (hv : s.app.Valid) (c : Circumstance) (conn : Nat)
    (msg : Structured) {id : Str} {ev : Event}
    (hparsed : Event.fromStructured rl.ext c.mem.event (msg.item 1) = .ok ev)
    (htext : rl.ext.asString ((msg.item 1).field (str "id")) = some id)
    (h : s.Accepts c id (s.trust ev)) :
    ∃ old new, App.Wrote s.app (s.onEvent c conn msg).app (.event (s.trust ev)) old new ∧
      (s.onEvent c conn msg).app.published = s.app.published ++ [(s.trust ev, some conn)] ∧
      (s.onEvent c conn msg).out = s.out ++ [.ok (answeredId id (s.trust ev)) true []] := by
  have passed : Passed s c (msg.item 1) false id (s.trust ev) :=
    ⟨htext, ⟨ev, hparsed, rfl⟩, fun _ => (unseen_iff s.app _).mpr h.fresh, h.worked, h.signed⟩
  obtain ⟨s₁, hq, hout, he⟩ := onEventGeneric_through passed h.letIn h.paced conn
    (publishVerified c.mem conn)
  have hfresh : ∀ e ∈ s₁.app.events, e.id ≠ (s.trust ev).id := hq.app.events ▸ h.fresh
  rcases s₁.store_room (hq.app.valid hv) hfresh c.mem conn id with
    ⟨_, a, old, new, hstore, w, hpub⟩ | ⟨hno, _⟩
  · rw [hstore] at he
    unfold onEvent
    rw [he]
    exact ⟨old, new, hq.app.wrote w, by rw [← hq.app.published]; exact hpub, by simp [send, hout]⟩
  · exact absurd (hq.app.room.mpr h.room) hno

/-- What is not accepted leaves the storage as it is. -/
theorem onEvent_declined (s : Session rl) (hv : s.app.Valid) (c : Circumstance) (conn : Nat)
    (msg : Structured) {id : Str} {ev : Event}
    (hparsed : Event.fromStructured rl.ext c.mem.event (msg.item 1) = .ok ev)
    (htext : rl.ext.asString ((msg.item 1).field (str "id")) = some id)
    (h : ¬ s.Accepts c id (s.trust ev)) :
    (s.onEvent c conn msg).app.records = s.app.records ∧
      (¬ ev.ephemeral → (s.onEvent c conn msg).app.published = s.app.published) := by
  have quiet {s' : Session rl} (q : Quiet s s') : s'.app.records = s.app.records ∧
      (¬ ev.ephemeral → s'.app.published = s.app.published) :=
    ⟨q.app.records, fun _ => q.app.published⟩
  by_cases paced : (s.limited c.now).1 = true
  · unfold onEvent
    have ho := s.onEventGeneric_outcome c conn (msg.item 1) (publishVerified c.mem conn) false
    generalize s.onEventGeneric c conn (msg.item 1) (publishVerified c.mem conn) false = s' at ho ⊢
    -- the event that passed is this one
    have known {id' : Str} {ev' : Event} (p : Passed s c (msg.item 1) false id' ev') :
        id' = id ∧ ev' = s.trust ev := by
      obtain ⟨e, he, rfl⟩ := p.parsed
      cases hparsed.symm.trans he
      exact ⟨Option.some.inj (p.text.symm.trans htext), rfl⟩
    cases ho with
    | rejected id' text' q out => exact quiet q
    | known id' ev' parsed special there => exact quiet (quiet_send (Quiet.refl s) _)
    | broadcast id' ev' s₁ passed kind special q =>
      obtain ⟨rfl, rfl⟩ := known passed
      refine ⟨q.app.records, fun hno => absurd ?_ hno⟩
      rcases s.trust_cases ev with ht | ⟨_, _, ht⟩ <;> rw [ht] at kind <;> exact kind
    | refused id' ev' s₁ e passed letIn q out threw => exact quiet (quiet_caught q _ _)
    | stored id' ev' s₁ passed letIn q out done =>
      obtain ⟨rfl, rfl⟩ := known passed
      have hfresh := (unseen_iff s.app _).mp (passed.fresh rfl)
      have hno : ¬ s₁.app.Room c.mem (s.trust ev) := fun room =>
        h ⟨hfresh, paced, passed.pow, passed.signed, letIn, q.app.room.mp room⟩
      rcases s₁.store_room (q.app.valid hv) (q.app.events ▸ hfresh) c.mem conn id' with
        ⟨room, _⟩ | ⟨_, he | ⟨e, he⟩⟩
      · exact absurd room hno
      · cases he.symm.trans done
        exact quiet (quiet_send q _)
      · cases he.symm.trans done
  · exact quiet (s.onEventGeneric_unpaced c conn (msg.item 1) _ _ (by simpa using paced))

theorem accepts_with_out (s : Session rl) (o : List Reply) {id : Str} :
    Accepts { s with out := o } c id ev ↔ s.Accepts c id ev := by
  have hpaced := s.limited_with_out o c.now
  constructor
  · rintro ⟨hfresh, hp, hworked, hsigned, hl, hroom⟩
    exact ⟨hfresh, hpaced ▸ hp, hworked, hsigned, ⟨hl.kind, hl.writable, hl.invited⟩, hroom⟩
  · rintro ⟨hfresh, hp, hworked, hsigned, hl, hroom⟩
    exact ⟨hfresh, hpaced.trans hp, hworked, hsigned, hl.with_out o, hroom⟩

end Session

namespace Server

/-- In every reachable state an EVENT message brings its event into the storage exactly
if it is accepted. It is then published and answered with true; else nothing changes,
but that an ephemeral event may go out to the subscribers. -/
theorem accepted_iff_entered (inputs : List Input)
    (hp : (run rl inputs).peers conn = some p) (hc : Carries rl f (str "EVENT") m)
    (hparsed : Event.fromStructured rl.ext c.mem.event m = .ok parsed) {id : Str}
    (htext : rl.ext.asString (m.field (str "id")) = some id) :
    let sv := run rl inputs
    let sv' := sv.step (.frame conn f c)
    let ev := (sv.session p).trust parsed
    ((sv.session p).Accepts c id ev ↔ Entered sv sv' ev) ∧
    ((sv.session p).Accepts c id ev →
      sv'.app.published = sv.app.published ++ [(ev, some conn)] ∧
      (conn, .ok (Session.answeredId id ev) true []) ∈ sv'.sent) ∧
    (¬ (sv.session p).Accepts c id ev → sv'.app.records = sv.app.records ∧
      (¬ ev.ephemeral → sv'.app.published = sv.app.published)) := by
  intro sv sv' ev
  have hv : sv.app.Valid := (run_regular inputs).valid
  obtain ⟨o, msg, -, rfl, hhandle⟩ := (sv.session p).handle_event conn c hc
  let s : Session rl := { sv.session p with out := o }
  have happ : sv'.app = (s.onEvent c conn msg).app :=
    (sv.step_app hp f c).trans (congrArg Session.app hhandle)
  have hsent : sv'.sent = sv.sent ++ (s.onEvent c conn msg).out.map (fun r => (conn, r)) :=
    (sv.step_sent hp f c).trans (by rw [hhandle]; rfl)
  have hiff : s.Accepts c id ev ↔ (sv.session p).Accepts c id ev :=
    (sv.session p).accepts_with_out o
  have hdeclined := s.onEvent_declined hv c conn msg hparsed htext
  rw [← happ] at hdeclined
  refine ⟨⟨fun h => ?_, fun h => ?_⟩, fun h => ?_, fun h => ?_⟩
  · obtain ⟨old, new, w, -⟩ := s.onEvent_accepted hv c conn msg hparsed htext (hiff.mpr h)
    rw [← happ] at w
    exact ⟨new, (w.mem _).mpr (Or.inl rfl), w.fresh⟩
  · by_contra hno
    obtain ⟨i, hi, hnew⟩ := h
    exact hnew _ ((hdeclined (fun h => hno (hiff.mp h))).1 ▸ hi) rfl
  · obtain ⟨old, new, -, hpub, hout⟩ := s.onEvent_accepted hv c conn msg hparsed htext (hiff.mpr h)
    rw [← happ] at hpub
    refine ⟨hpub, ?_⟩
    rw [hsent, hout]
    exact List.mem_append_right _ (List.mem_map_of_mem
      (List.mem_append_right _ (List.mem_singleton_self _)))
  · have hkept : ev.ephemeral ↔ parsed.ephemeral := by
      rcases (sv.session p).trust_cases parsed with ht | ⟨_, _, ht⟩ <;>
        simp only [ev, ht, Event.ephemeral]
    rw [hkept]
    exact hdeclined (fun h' => h (hiff.mp h'))

def limitedNames : Relay :=
  sampleRelay { whitelisting := true, eventRateWindow := 60, eventRateLimit := 2 }
    [(nameText 1700000000 "bob@relay.example", bobMetadata),
      (nameText 1700000001 "rob@relay.example", robMetadata)]
    [bobMessage, robMessage, nameContent "bob@relay.example", nameContent "rob@relay.example"]

/-- The second metadata meets everything asked of it beside the first, and replaces it. -/
theorem rob_accepted : ∃ p, (run limitedNames bobSent).peers 0 = some p ∧
    ((run limitedNames bobSent).session p).Accepts { mem := .zeros, now := 0 }
      robMetadata.id.toHex robMetadata ∧
    ((run limitedNames bobSent).step (robMessage.sent .zeros)).app.published =
      (run limitedNames bobSent).app.published ++ [(robMetadata, some 0)] := by
  have hstored : (run limitedNames bobSent).app.records = [(1, .event bobMetadata)] := by
    decide +kernel
  have hreplaced : ((run limitedNames bobSent).step (robMessage.sent .zeros)).app.records =
      [(2, .event robMetadata)] := by decide +kernel
  have hcarries : Carries limitedNames (.text (jsonText robMessage)) (str "EVENT")
      (robMetadata.message robMetadata.id.toHex) := by
    have hother : (jsonText bobMessage == jsonText robMessage) = false := by decide +kernel
    refine ⟨_, robMessage, rfl, ?_, rfl, rfl⟩
    simp [limitedNames, sampleRelay, plainRelay, plainEngine, tabled, Relay.ext, hother]
  have hparsed : Event.fromStructured limitedNames.ext Memory.zeros.event
      (robMetadata.message robMetadata.id.toHex) = .ok robMetadata :=
    ok_of_toOption (by decide +kernel)
  have htext : limitedNames.ext.asString
      ((robMetadata.message robMetadata.id.toHex).field (str "id")) =
        some robMetadata.id.toHex := by
    rw [message_id]
    exact External.asString_string _ _
  have hauthent : ((run limitedNames bobSent).peers 0).map Peer.authent = some false := by
    decide +kernel
  obtain ⟨p, hpeer, hauth⟩ := Option.map_eq_some_iff.mp hauthent
  have hgate := accepted_iff_entered bobSent hpeer hcarries
    (c := { mem := .zeros, now := 0 }) hparsed htext
  have htrust : ((run limitedNames bobSent).session p).trust robMetadata = robMetadata := by
    simp [Session.trust, session, hauth]
  simp only [htrust] at hgate
  have hframe : robMessage.sent .zeros =
      .frame 0 (.text (jsonText robMessage)) { mem := .zeros, now := 0 } := rfl
  rw [hframe] at hreplaced ⊢
  have hnumber : ∀ r ∈ (run limitedNames bobSent).app.records, r.1 ≠ 2 := by
    rw [hstored]
    simp
  have hentered := hgate.1.mpr
  simp only [Entered, hreplaced, List.mem_singleton] at hentered
  have haccepts := hentered ⟨2, rfl, hnumber⟩
  exact ⟨p, hpeer, haccepts, (hgate.2.1 haccepts).1⟩

end Server

end NostrServer
