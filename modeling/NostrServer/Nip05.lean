import NostrServer.Removal

namespace NostrServer
open Docdb

variable {rl : Relay}

def findText (text : Str) : Str → Option Nat
  | [] => if text.isEmpty then some 0 else none
  | c :: rest => if text.isPrefixOf (c :: rest) then some 0 else (findText text rest).map (· + 1)

/-- The address of the relay, made of the address of the request; `none` when `substr` throws.
A length that would be negative takes everything. -/
def myRelay (url : Str) : Option Str :=
  if url.length < 4 then none
  else
    match findText (str "/.well-known") url with
    | some pos => some (str "ws" ++ if pos < 4 then url.drop 4 else (url.drop 4).take (pos - 4))
    | none => some (str "ws" ++ url.drop 4)

/-- An answer to a request for a name: what static pages have, an exception, or JSON. -/
inductive NamesReply where
  | pages
  | threw
  | json (result : Structured)

def namesResult (names relays : List (Str × Structured)) : NamesReply :=
  .json (.object [(str "names", .object names), (str "relays", .object relays)])

def namesFound (name : Str) (author : Pubkey) (relay : Str) : NamesReply :=
  namesResult [(name, .string author.toHex)] [(author.toHex, .array [.string relay])]

namespace App
variable (a : App rl)

/-- The document `_index_nip05` has under a name; zero when there is none. -/
def findNip05 (ident : Str) : DocID :=
  match a.records.find? (fun r => (indexNip05Fn rl.ext r.2).contains ident) with
  | some r => r.1
  | none => 0

/-- `App::process_nip05_request`, for the name in the query, the host and the address. -/
def processNip05Request (name host url : Str) : NamesReply :=
  if name.isEmpty ∨ name = str "_" then .pages
  else
    match a.find (a.findNip05 (name ++ str "@" ++ host)) with
    | some (.event ev) =>
      match myRelay url with
      | some relay => namesFound name ev.author relay
      | none => .threw
    | _ => namesResult [] []

end App

/-- The event is the metadata of someone who goes by the name. -/
def Event.Calls (ext : External) (ev : Event) (ident : Str) : Prop :=
  ev.kind = Kind.metadata ∧ 64 ∈ ident ∧ ∃ ctx, ext.fromJson ev.content = some ctx ∧
    ext.asStringView (ctx.field (str "nip05")) = some ident

theorem mem_indexNip05 {ext : External} {d : EventOrAttachment} {ident : Str} :
    ident ∈ indexNip05Fn ext d ↔ ∃ ev, d = .event ev ∧ ev.Calls ext ident := by
  cases d with
  | attachment att => simp [indexNip05Fn]
  | event ev =>
    simp only [EventOrAttachment.event.injEq, exists_eq_left']
    unfold indexNip05Fn Event.Calls
    by_cases hk : ev.kind = Kind.metadata
    · simp only [hk, ↓reduceIte, true_and]
      cases hctx : ext.fromJson ev.content with
      | none => simp
      | some ctx =>
        cases hname : ext.asStringView (ctx.field (str "nip05")) with
        | none => simp [hname]
        | some name =>
          by_cases hat : name.contains 64 = true
          · simp only [Option.bind_some, hname, hat, ↓reduceIte, List.mem_singleton,
              Option.some.injEq, exists_eq_left']
            exact ⟨fun h => ⟨h ▸ List.contains_iff_mem.mp hat, h.symm⟩, fun h => h.2.symm⟩
          · simp only [Option.bind_some, hname, hat, ↓reduceIte, List.not_mem_nil,
              Option.some.injEq, exists_eq_left', false_iff, Bool.false_eq_true]
            rintro ⟨hmem, rfl⟩
            exact hat (List.contains_iff_mem.mpr hmem)
    · simp [hk]

theorem namesFound_injective {author author' : Pubkey} {name relay : Str}
    (h : namesFound name author relay = namesFound name author' relay) : author = author' := by
  simp only [namesFound, namesResult, NamesReply.json.injEq, Structured.object.injEq,
    List.cons.injEq, Prod.mk.injEq, Structured.string.injEq, true_and, and_true] at h
  exact Binary.toHex_injective h.1

theorem namesFound_ne (name : Str) (author : Pubkey) (relay : Str) :
    namesFound name author relay ≠ namesResult [] [] := by
  simp [namesFound, namesResult]

namespace App

/-- What the index has under a name is the one stored event that calls its author so. -/
theorem findNip05_spec {a : App rl} (ident : Str) :
    (∃ ev, a.find (a.findNip05 ident) = some (.event ev) ∧ ev.Calls rl.ext ident) ∨
    (a.find (a.findNip05 ident) = none ∧
      ∀ i ev, (i, .event ev) ∈ a.records → ¬ ev.Calls rl.ext ident) := by
  unfold findNip05
  split
  · rename_i r hr
    left
    have hname : ident ∈ indexNip05Fn rl.ext r.2 := by simpa using List.find?_some hr
    obtain ⟨ev, hev, hcalls⟩ := mem_indexNip05.mp hname
    exact ⟨ev, find_iff.mpr (hev ▸ List.mem_of_find?_eq_some hr), hcalls⟩
  · rename_i hnone
    right
    constructor
    · cases hfind : a.find 0 with
      | none => rfl
      | some d => exact absurd rfl (number_pos (find_iff.mp hfind))
    · intro i ev hi hcalls
      have hno := List.find?_eq_none.mp hnone _ hi
      exact hno (List.contains_iff_mem.mpr (mem_indexNip05.mpr ⟨ev, rfl, hcalls⟩))

/-- A name belongs to one event, -/
theorem Valid.same_name {a : App rl} (hv : a.Valid) {i j : DocID}
    (hi : (i, .event ev) ∈ a.records) (hj : (j, .event ev') ∈ a.records)
    (h : ev.Calls rl.ext ident) (h' : ev'.Calls rl.ext ident) : ev = ev' := by
  have hij : i = j := hv.unique _ hi _ hj (.nip05 ident)
    (holds_nip05.mpr (mem_indexNip05.mpr ⟨ev, rfl, h⟩))
    (holds_nip05.mpr (mem_indexNip05.mpr ⟨ev', rfl, h'⟩))
  cases same_record a.ids_nodup hi hj hij
  rfl

/-- and an author has one metadata event. -/
theorem Valid.same_metadata {a : App rl} (hv : a.Valid) {i j : DocID}
    (hi : (i, .event ev) ∈ a.records) (hj : (j, .event ev') ∈ a.records)
    (h : ev.kind = Kind.metadata) (h' : ev'.kind = Kind.metadata) (ha : ev.author = ev'.author) :
    ev = ev' := by
  have key {e : Event} (he : e.kind = Kind.metadata) :
      replaceable e = true ∧ e.replaceKey = ⟨e.author, Kind.metadata, []⟩ := by
    have hplain : parameterizedReplaceable e = false := by
      unfold parameterizedReplaceable
      rw [he]
      decide
    simp [replaceable, Event.replaceKey, hplain, he]
  have hij : i = j := by
    refine hv.unique _ hi _ hj (.replaceable ev.replaceKey) ?_ ?_
    · exact holds_replaceable.mpr ⟨ev, rfl, (key h).1, rfl⟩
    · exact holds_replaceable.mpr ⟨ev', rfl, (key h').1, by rw [(key h).2, (key h').2, ha]⟩
  cases same_record a.ids_nodup hi hj hij
  rfl

/-- A name is answered with the author of the stored metadata that has it, and that is the
author's only metadata; when there is none the answer has no names. -/
theorem processNip05Request_spec {a : App rl} (hv : a.Valid) {name : Str} (hne : name ≠ [])
    (hroot : name ≠ str "_") (host : Str) {url relay : Str} (hurl : myRelay url = some relay) :
    (∀ author, a.processNip05Request name host url = namesFound name author relay ↔
      ∃ i ev, (i, .event ev) ∈ a.records ∧ ev.Calls rl.ext (name ++ str "@" ++ host) ∧
        ev.author = author ∧ ∀ j ev', (j, .event ev') ∈ a.records → ev'.kind = Kind.metadata →
          ev'.author = author → ev' = ev) ∧
    (a.processNip05Request name host url = namesResult [] [] ↔
      ∀ i ev, (i, .event ev) ∈ a.records → ¬ ev.Calls rl.ext (name ++ str "@" ++ host)) := by
  have hasked : ¬ (name.isEmpty = true ∨ name = str "_") := by simp [hne, hroot]
  unfold processNip05Request
  rw [if_neg hasked]
  rcases findNip05_spec (a := a) (name ++ str "@" ++ host) with
    ⟨ev, hfind, hcalls⟩ | ⟨hfind, hnone⟩
  · have hi := find_iff.mp hfind
    simp only [hfind, hurl]
    refine ⟨fun author => ?_, iff_of_false (namesFound_ne _ _ _) (fun h => h _ ev hi hcalls)⟩
    constructor
    · intro h
      have hauthor := namesFound_injective h
      refine ⟨_, ev, hi, hcalls, hauthor, ?_⟩
      intro j ev' hj hk ha
      exact hv.same_metadata hj hi hk hcalls.1 (ha.trans hauthor.symm)
    · rintro ⟨j, ev', hj, hcalls', rfl, -⟩
      rw [hv.same_name hi hj hcalls hcalls']
  · simp only [hfind]
    refine ⟨fun author => iff_of_false (namesFound_ne _ _ _).symm ?_, by simpa using hnone⟩
    rintro ⟨i, ev, hi, hcalls, -⟩
    exact hnone i ev hi hcalls

theorem processNip05Request_asked {a : App rl} {name host url relay : Str} {author : Pubkey}
    (h : a.processNip05Request name host url = namesFound name author relay) :
    name ≠ [] ∧ name ≠ str "_" := by
  by_cases hpages : name.isEmpty = true ∨ name = str "_"
  · rw [processNip05Request, if_pos hpages] at h
    cases h
  · simpa using hpages

end App

namespace Server

/-- In every reachable state a name is answered with the author of the stored metadata that
has it, and that is the author's only metadata; when there is none the answer has no names. -/
theorem names_answered (inputs : List Input) {name : Str} (hne : name ≠ []) (hroot : name ≠ str "_")
    (host : Str) {url relay : Str} (hurl : myRelay url = some relay) :
    (∀ author, (run rl inputs).app.processNip05Request name host url =
        namesFound name author relay ↔
      ∃ i ev, (i, .event ev) ∈ (run rl inputs).app.records ∧
        ev.Calls rl.ext (name ++ str "@" ++ host) ∧ ev.author = author ∧
        ∀ j ev', (j, .event ev') ∈ (run rl inputs).app.records → ev'.kind = Kind.metadata →
          ev'.author = author → ev' = ev) ∧
    ((run rl inputs).app.processNip05Request name host url = namesResult [] [] ↔
      ∀ i ev, (i, .event ev) ∈ (run rl inputs).app.records →
        ¬ ev.Calls rl.ext (name ++ str "@" ++ host)) :=
  App.processNip05Request_spec (run_regular inputs).valid hne hroot host hurl

def nameContent (ident : String) : Structured := .object [(str "nip05", .string (str ident))]

def nameText (createdAt : Int) (ident : String) : Str :=
  jsonText (.array [.int 0, .string note.author.toHex, .int createdAt, .int 0, .array [],
    .string (jsonText (nameContent ident))])

/-- The author of the note calls himself Bob, -/
def bobMetadata : Event := Event.parsed
  { kind := 0, createdAt := 1700000000, content := jsonText (nameContent "bob@relay.example")
    id := .ofNat 0x904d6f78b19efee26047c66fbd2cd10715da2105394514ca6483d712382e7a80
    author := note.author
    sig := .ofNat 0x5b0ad320bffc9acec08433c1a1b143df8ede05d39d9de70be79da36e34688aef22db2bb196c8b338bb43e898bd57ae2d9b542d5470aeea586476b5a16ce216b4 }

/-- and something else a second later. -/
def robMetadata : Event := Event.parsed
  { kind := 0, createdAt := 1700000001, content := jsonText (nameContent "rob@relay.example")
    id := .ofNat 0xe191b291eb72258e2326741ab13d98ef26f3a84c2d15b78301b0150d1129ac75
    author := note.author
    sig := .ofNat 0xf8afb6e9ba701afbbea0600f5d5b40ae7b9554400664363e64d593a361bc56872d8694b1ca07626dd3b9bf588ced7e18b741b7cbdf85ba0bf1acb61132be4ab8 }

def bobMessage : Structured := bobMetadata.command "EVENT" bobMetadata.id.toHex

def robMessage : Structured := robMetadata.command "EVENT" robMetadata.id.toHex

def namesRelay : Relay :=
  sampleRelay {} [(nameText 1700000000 "bob@relay.example", bobMetadata),
    (nameText 1700000001 "rob@relay.example", robMetadata)]
    [bobMessage, robMessage, nameContent "bob@relay.example", nameContent "rob@relay.example"]

def bobSent : List Input := [arrival, bobMessage.sent Memory.zeros]

def namesHost : Str := str "relay.example"

def namesUrl : Str := str "http://relay.example/.well-known/nostr.json"

def namesAddress : Str := str "ws://relay.example"

theorem namesUrl_address : myRelay namesUrl = some namesAddress := by decide +kernel

theorem bobSent_records : (run namesRelay bobSent).app.records = [(1, .event bobMetadata)] := by
  decide +kernel

theorem bob_stored : (1, .event bobMetadata) ∈ (run namesRelay bobSent).app.records := by
  rw [bobSent_records]
  exact List.mem_singleton_self _

theorem bob_calls : bobMetadata.Calls namesRelay.ext (str "bob" ++ str "@" ++ namesHost) := by
  have hname : str "bob" ++ str "@" ++ namesHost ∈
      indexNip05Fn namesRelay.ext (.event bobMetadata) := by decide +kernel
  obtain ⟨ev, hev, hcalls⟩ := mem_indexNip05.mp hname
  cases hev
  exact hcalls

theorem bob_only {i : DocID} {ev : Event}
    (h : (i, .event ev) ∈ (run namesRelay bobSent).app.records) : ev = bobMetadata := by
  rw [bobSent_records, List.mem_singleton] at h
  exact EventOrAttachment.event.inj (Prod.mk.inj h).2

/-- Bob is answered with the author, and Rob with no one. -/
theorem bob_answered :
    (∀ author, (run namesRelay bobSent).app.processNip05Request (str "bob") namesHost namesUrl =
      namesFound (str "bob") author namesAddress ↔ author = note.author) ∧
    (run namesRelay bobSent).app.processNip05Request (str "rob") namesHost namesUrl =
      namesResult [] [] := by
  constructor
  · intro author
    refine ((@names_answered namesRelay bobSent (str "bob") (by decide) (by decide) namesHost _ _
      namesUrl_address).1 author).trans ⟨?_, ?_⟩
    · rintro ⟨i, ev, hi, -, rfl, -⟩
      rw [bob_only hi]
      rfl
    · rintro rfl
      exact ⟨1, bobMetadata, bob_stored, bob_calls, rfl, fun j ev' hj _ _ => bob_only hj⟩
  · refine (@names_answered namesRelay bobSent (str "rob") (by decide) (by decide) namesHost _ _
      namesUrl_address).2.mpr ?_
    intro i ev hi hcalls
    rw [bob_only hi] at hcalls
    exact absurd (mem_indexNip05.mpr ⟨_, rfl, hcalls⟩) (by decide +kernel)

/-- A step takes an event away only when its author publishes another. -/
theorem step_loses (sv : Server rl) (h : sv.Regular) (x : Input) (he : sv.Holds e)
    (hno : ¬ (sv.step x).Holds e) : ∃ ev source,
      (sv.step x).app.published = sv.app.published ++ [(ev, source)] ∧ ev.verify rl.ext = true ∧
        ev.author = e.author ∧ (ev.kind = Kind.eventDeletion ∨ ev.Supersedes e) := by
  have hm := sv.step_moved h.valid x
  generalize sv.step x = sv' at hm hno ⊢
  have same (hr : sv'.app.records = sv.app.records) : False := by
    obtain ⟨i, hi⟩ := he
    exact hno ⟨i, hr ▸ hi⟩
  cases hm with
  | still _ app peers => exact (same (by rw [app])).elim
  | gc mem =>
    obtain ⟨i, hi⟩ := he
    exact absurd ⟨i, ((sv.app.runAttachmentGc_collected h.valid h.filed mem).events i e).mpr hi⟩ hno
  | message conn f c p s' peer effect app peers =>
    have wrote {d : EventOrAttachment} {old new : DocID} (w : App.Wrote sv.app s'.app d old new) :
        App.Wrote sv.app sv'.app d old new := app ▸ w
    have header {ev : Event} (hpend : p.fileEvent = some ev) :
        (sv.session p).app.docToReplace { ev with nip97 := true } = some 0 :=
      App.docToReplace_fileHeader _ (h.pending conn p peer ev hpend).2
    cases effect with
    | quiet q => exact (same (by rw [app, q.app.records]; rfl)).elim
    | broadcast m id ev hc passed hk hs ha hpub =>
      exact (same (by simp [app, App.records, hs, session])).elim
    | awaits m id ev hc passed l hchk ha => exact (same (by rw [app, ha.records]; rfl)).elim
    | seen ev hpend ha => exact (same (by rw [app, ha.records]; rfl)).elim
    | dropped ha => exact (same (by rw [app, ha.records]; rfl)).elim
    | published m id ev old new hc passed l hk hd w hpub =>
      have hold := wrote_removes (wrote w) he hno
      have hsupersedes : ev.Supersedes e := by
        rcases (sv.session p).app.docToReplace_spec ev with
          ⟨hd', _⟩ | ⟨hd', _⟩ | ⟨i, e', hd', he', _, hr, hkey, ht⟩
        · cases hd'.symm.trans hd
        · cases hd'.symm.trans hd
          exact absurd rfl (App.number_pos hold)
        · cases hd'.symm.trans hd
          cases same_record sv.app.ids_nodup he' hold rfl
          exact Event.supersedes_of_key hr hkey ht
      exact ⟨ev, some conn, app ▸ hpub, passed.signed, hsupersedes.author, Or.inr hsupersedes⟩
    | deleted m id ev e' i new hc passed l hk ht hid hauth w hpub =>
      have hold := wrote_removes (wrote w) he hno
      cases same_record sv.app.ids_nodup ht hold rfl
      exact ⟨ev, some conn, app ▸ hpub, passed.signed, hauth.symm, Or.inl hk⟩
    | reused data ev old new hfr hpend hh hatt hd w =>
      have hold := wrote_removes (wrote w) he hno
      cases (header hpend).symm.trans hd
      exact absurd rfl (App.number_pos hold)
    | uploaded data ev old new new' a hfr hpend hh hatt hd w w' =>
      cases (header hpend).symm.trans hd
      obtain ⟨i, hi⟩ := he
      have hi' : (i, EventOrAttachment.event e) ∈ a.records :=
        (w.mem _).mpr (Or.inr ⟨hi, App.number_pos hi⟩)
      exact absurd ⟨i, app ▸ (w'.mem _).mpr (Or.inr ⟨hi', App.number_pos hi'⟩)⟩ hno

/-- Whoever a name is answered with in a reachable state has it until publishing new
metadata or a deletion request: no one else takes it away. -/
theorem name_kept (inputs : List Input) (x : Input) {name host url relay : Str} {author : Pubkey}
    (hurl : myRelay url = some relay)
    (hbefore : (run rl inputs).app.processNip05Request name host url =
      namesFound name author relay)
    (hafter : (run rl (inputs ++ [x])).app.processNip05Request name host url ≠
      namesFound name author relay) :
    ∃ ev source, (run rl (inputs ++ [x])).app.published =
        (run rl inputs).app.published ++ [(ev, source)] ∧ ev.verify rl.ext = true ∧
      ev.author = author ∧ (ev.kind = Kind.eventDeletion ∨ ev.kind = Kind.metadata) := by
  obtain ⟨hne, hroot⟩ := App.processNip05Request_asked hbefore
  have hanswer (inputs : List Input) :=
    (App.processNip05Request_spec (run_regular inputs : (run rl inputs).Regular).valid hne hroot
      host hurl).1 author
  obtain ⟨i, e, hi, hcalls, rfl, -⟩ := (hanswer inputs).mp hbefore
  have hgone : ¬ (run rl (inputs ++ [x])).Holds e := by
    rintro ⟨j, hj⟩
    refine hafter ((hanswer _).mpr ⟨j, e, hj, hcalls, rfl, ?_⟩)
    intro k ev' hk hkind ha
    exact (run_regular (inputs ++ [x])).valid.same_metadata hk hj hkind hcalls.1 ha
  rw [run_step] at hgone ⊢
  obtain ⟨ev, source, hpub, hsigned, hauthor, hwhy⟩ :=
    step_loses _ (run_regular inputs) x ⟨i, hi⟩ hgone
  exact ⟨ev, source, hpub, hsigned, hauthor, hwhy.imp_right (fun h => h.kind.trans hcalls.1)⟩

/-- Bob's name is gone once he calls himself something else. -/
theorem bob_renamed : ∃ ev source,
    (run namesRelay (bobSent ++ [robMessage.sent Memory.zeros])).app.published =
      (run namesRelay bobSent).app.published ++ [(ev, source)] ∧
    ev.verify namesRelay.ext = true ∧ ev.author = note.author ∧
    (ev.kind = Kind.eventDeletion ∨ ev.kind = Kind.metadata) := by
  have hanswer (inputs : List Input) :=
    (App.processNip05Request_spec (run_regular inputs : (run namesRelay inputs).Regular).valid
      (by decide : str "bob" ≠ []) (by decide) namesHost namesUrl_address).1 note.author
  have hafter : (run namesRelay (bobSent ++ [robMessage.sent Memory.zeros])).app.records =
      [(2, .event robMetadata)] := by decide +kernel
  refine name_kept bobSent (robMessage.sent Memory.zeros) namesUrl_address
    ((hanswer bobSent).mpr ⟨1, bobMetadata, bob_stored, bob_calls, rfl,
      fun j ev' hj _ _ => bob_only hj⟩) ?_
  intro h
  obtain ⟨i, ev, hi, hcalls, -⟩ := (hanswer _).mp h
  rw [hafter, List.mem_singleton] at hi
  cases (Prod.mk.inj hi).2
  exact absurd (mem_indexNip05.mpr ⟨_, rfl, hcalls⟩) (by decide +kernel)

end Server

end NostrServer
