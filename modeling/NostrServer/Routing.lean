import Mathlib.Order.Bounds.Basic
import NostrServer.KarmaRuns
import NostrServer.Lib.AggregateBy
import NostrServer.Lib.Indexing
import NostrServer.Lib.Ranking
import NostrServer.Nip05

namespace NostrServer
open Docdb

namespace Kind

def reaction : UInt32 := 7
def relayListMetadata : UInt32 := 10002

end Kind

/-- `RoutingIndexFn::adjust_relay_url`. A slash is taken off the end when it is the first one
behind the host. -/
def adjustRelayUrl (url : Str) : Str :=
  if ¬ (str "ws://").isPrefixOf url ∧ ¬ (str "wss://").isPrefixOf url then []
  else
    match findText (str "://") url with
    | none => []
    | some p1 =>
      match findText (str "/") (url.drop (p1 + 3)) with
      | none => url
      | some p2 => if p1 + 3 + p2 = url.length - 1 then url.dropLast else url

/-- The relays of a contact list that are written to. A value that is no flag throws, which
ends the loop. -/
def writeRelays (asBool : Structured → Option Bool) : List (Str × Structured) → List Str
  | [] => []
  | (key, value) :: rest =>
    match asBool (value.field (str "write")) with
    | none => []
    | some false => writeRelays asBool rest
    | some true =>
      if adjustRelayUrl key = [] then writeRelays asBool rest
      else adjustRelayUrl key :: writeRelays asBool rest

/-- What is emitted of the `p` tags: the relay and the user, and how far away the event is.
`mem` holds what was in the arrays that the users are read into. -/
def mentionRows (mem : Nat → Pubkey) (ev : Event) : List ((Str × Pubkey) × UInt8) :=
  ((ev.forEachTag (str "p")).zipIdx.filter (fun t => t.1.content.length = 64)).map (fun t =>
    (((t.1.additionalContent.head?.map adjustRelayUrl).getD [],
      fromHex (mem t.2) t.1.content), ev.refLevel))

/-- What is emitted of the content of a contact list; exceptions are dropped. -/
def contactRows (ext : External) (asBool : Structured → Option Bool) (ev : Event) :
    List ((Str × Pubkey) × UInt8) :=
  if ev.kind = Kind.contacts ∧ ev.content ≠ [] then
    match ext.fromJson ev.content with
    | none => []
    | some json => (writeRelays asBool json.keypairs).map (fun url =>
        ((url, ev.author), ev.refLevel))
  else []

/-- What is emitted of the `r` tags. -/
def listRows (ev : Event) : List ((Str × Pubkey) × UInt8) :=
  ((ev.forEachTag (str "r")).filter (fun t => t.additionalContent.head? ≠ some (str "read") ∧
      adjustRelayUrl t.content ≠ [])).map
    (fun t => ((adjustRelayUrl t.content, ev.author), ev.refLevel))

def routingIndexFn (ext : External) (asBool : Structured → Option Bool) (mem : Nat → Pubkey) :
    EventOrAttachment → List ((Str × Pubkey) × UInt8)
  | .attachment _ => []
  | .event ev =>
    if ev.kind = Kind.shortTextNote ∨ ev.kind = Kind.reaction ∨ ev.kind = Kind.contacts then
      mentionRows mem ev ++ contactRows ext asBool ev
    else if ev.kind = Kind.relayListMetadata then listRows ev
    else []

def bareHost (host : Str) : Str :=
  match findText (str "/") host with
  | none => host
  | some p => if p + 1 = host.length then host.dropLast else host

theorem findText_none {c : UInt8} {s : Str} : findText [c] s = none ↔ c ∉ s := by
  induction s with
  | nil => simp [findText]
  | cons d s ih =>
    by_cases hd : c = d
    · simp [findText, hd]
    · simp [findText, hd, ih]

theorem findText_first {c : UInt8} {s : Str} (h : findText [c] s = some p) : c ∉ s.take p := by
  induction s generalizing p with
  | nil => simp
  | cons d s ih =>
    by_cases hd : c = d
    · have hzero : p = 0 := by simpa [findText, hd, eq_comm] using h
      simp [hzero]
    · simp only [findText, List.isPrefixOf_cons_cons, beq_iff_eq, hd,
        List.isPrefixOf_nil_left, Bool.and_true, ↓reduceIte] at h
      obtain ⟨q, hq, rfl⟩ := Option.map_eq_some_iff.mp h
      simp [hd, ih hq]

/-- A host that ended with its only slash has none. -/
theorem bareHost_bare (host : Str) : bareHost (bareHost host) = bareHost host := by
  cases hfind : findText (str "/") host with
  | none =>
    have hbare : bareHost host = host := by simp [bareHost, hfind]
    rw [hbare, hbare]
  | some p =>
    by_cases hlast : p + 1 = host.length
    · have hbare : bareHost host = host.dropLast := by simp [bareHost, hfind, hlast]
      have hno : findText (str "/") host.dropLast = none := by
        have hfirst := findText_first (c := 47) hfind
        rw [List.dropLast_eq_take, ← hlast, Nat.add_sub_cancel]
        exact findText_none.mpr hfirst
      rw [hbare, bareHost, hno]
    · have hbare : bareHost host = host := by simp [bareHost, hfind, hlast]
      rw [hbare, hbare]

/-- Behind the scheme of a relay comes its host. -/
theorem adjustRelayUrl_scheme {scheme : Str} (h : scheme = str "ws://" ∨ scheme = str "wss://")
    (host : Str) : adjustRelayUrl (scheme ++ host) = scheme ++ bareHost host := by
  have hscheme : ¬ (¬ (str "ws://").isPrefixOf (scheme ++ host) ∧
      ¬ (str "wss://").isPrefixOf (scheme ++ host)) := by
    rcases h with rfl | rfl
    · exact fun hno => hno.1 rfl
    · exact fun hno => hno.2 rfl
  obtain ⟨p1, hp1, hlength⟩ : ∃ p1, findText (str "://") (scheme ++ host) = some p1 ∧
      p1 + 3 = scheme.length := by
    rcases h with rfl | rfl
    · exact ⟨2, rfl, rfl⟩
    · exact ⟨3, rfl, rfl⟩
  unfold adjustRelayUrl bareHost
  rw [if_neg hscheme, hp1]
  dsimp only
  rw [hlength, List.drop_left]
  cases hfind : findText (str "/") host with
  | none => rfl
  | some p2 =>
    have hne : host ≠ [] := by
      rintro rfl
      cases hfind
    have hend : scheme.length + p2 = (scheme ++ host).length - 1 ↔ p2 + 1 = host.length := by
      have hpos := List.length_pos_of_ne_nil hne
      rw [List.length_append]
      omega
    simp only [hend]
    split
    · exact List.dropLast_append_of_ne_nil hne
    · rfl

/-- An address is adjusted once and for all. -/
theorem adjustRelayUrl_adjusted (url : Str) :
    adjustRelayUrl (adjustRelayUrl url) = adjustRelayUrl url := by
  by_cases hscheme : ∃ scheme host, (scheme = str "ws://" ∨ scheme = str "wss://") ∧
      scheme ++ host = url
  · obtain ⟨scheme, host, h, rfl⟩ := hscheme
    rw [adjustRelayUrl_scheme h, adjustRelayUrl_scheme h, bareHost_bare]
  · have hno : ¬ (str "ws://").isPrefixOf url ∧ ¬ (str "wss://").isPrefixOf url := by
      constructor
      · intro hws
        obtain ⟨host, he⟩ := List.isPrefixOf_iff_prefix.mp hws
        exact hscheme ⟨_, host, Or.inl rfl, he⟩
      · intro hwss
        obtain ⟨host, he⟩ := List.isPrefixOf_iff_prefix.mp hwss
        exact hscheme ⟨_, host, Or.inr rfl, he⟩
    have hnone : adjustRelayUrl url = [] := by rw [adjustRelayUrl, if_pos hno]
    rw [hnone]
    rfl

abbrev RoutingRow := Entry (Str × Pubkey) UInt8

def routingLe (r q : RoutingRow) : Bool :=
  r.key.1 < q.key.1 || (r.key.1 == q.key.1 && r.key.2.bytes ≤ q.key.2.bytes)

/-- `aggrDepth`, of the levels one after another. -/
def aggrDepth (levels : List UInt8) : UInt8 :=
  (levels.foldl (fun dist d => if d.toUInt32 < dist then d.toUInt32 else dist)
    (255 : UInt32)).toUInt8

structure Routes {ext : External} (db : EventStorage ext)
    (ix : MultiIndex (Str × Pubkey) UInt8) where
  storage : db.State
  index : ix.State

/-- What the arrays held that keys were read into, for the old document of an update and for
the new one. -/
structure RoutingMemory where
  erase : Nat → Pubkey
  insert : Nat → Pubkey

namespace Routes
variable {ext : External} {db : EventStorage ext} {ix : MultiIndex (Str × Pubkey) UInt8}
  (asBool : Structured → Option Bool)

def step (r : Routes db ix) (x : StorageStep × RoutingMemory) : Routes db ix :=
  let share (up : Update EventOrAttachment) :=
    ix.reindex (routingIndexFn ext asBool x.2.erase) (routingIndexFn ext asBool x.2.insert) up
      r.index
  match x.1 with
  | .put d old _ =>
    match db.put r.storage d old with
    | none => r
    | some (id, s') => ⟨s', share ⟨some d, id, (db.records r.storage).find old, old⟩⟩
  | .erase i _ =>
    ⟨db.erase r.storage i, share ⟨none, 0, (db.records r.storage).find i, i⟩⟩

def machine (db : EventStorage ext) (ix : MultiIndex (Str × Pubkey) UInt8) :
    Machine (Routes db ix) (StorageStep × RoutingMemory) where
  start := ⟨db.empty, ix.empty⟩
  step := step asBool

variable (agg : AggregateBy) (r : Routes db ix)

def selectAll : List RoutingRow := (ix.rows r.index).mergeSort routingLe

def select (relay : Str) : List RoutingRow := r.selectAll.filter (fun row => row.key.1 = relay)

def getKnownRelays : List (Str × UInt8) :=
  agg.recordset (fun row => row.key.1) (fun rows => aggrDepth (rows.map Entry.value)) r.selectAll

def getUsersOnRelay (relay : Str) : List (Pubkey × UInt8) :=
  (agg.recordset (fun row => row.key) (fun rows => aggrDepth (rows.map Entry.value))
    (r.select relay)).map (fun p => (p.1.2, p.2))

end Routes

/-- The event reads its users out of tags. -/
def Event.Mentions (ev : Event) : Prop :=
  ev.kind = Kind.shortTextNote ∨ ev.kind = Kind.reaction ∨ ev.kind = Kind.contacts

/-- Every tag that a user is read out of spells one. -/
def Event.SpellsUsers (ev : Event) : Prop :=
  ev.Mentions → ∀ t ∈ ev.forEachTag (str "p"), t.content.length = 64 → Written 32 t.content

section
variable (ext : External) (asBool : Structured → Option Bool)

/-- The contact list of an event has the relay among those that are written to, and nothing
in front of it throws. -/
def Event.WritesTo (ev : Event) (relay : Str) : Prop :=
  ev.content ≠ [] ∧ relay ≠ [] ∧ ∃ json before key value after,
    ext.fromJson ev.content = some json ∧ json.keypairs = before ++ (key, value) :: after ∧
    (∀ kv ∈ before, asBool (kv.2.field (str "write")) ≠ none) ∧
    asBool (value.field (str "write")) = some true ∧ adjustRelayUrl key = relay

/-- The event says that the user is on the relay, or on one it does not name. -/
inductive Event.Places (ev : Event) : Str → Pubkey → Prop where
  | mention (t : Tag) (kind : ev.Mentions) (tag : t ∈ ev.forEachTag (str "p"))
      (long : t.content.length = 64) (names : Names t.content user) :
      Event.Places ev ((t.additionalContent.head?.map adjustRelayUrl).getD []) user
  | contact (kind : ev.kind = Kind.contacts) (writes : ev.WritesTo ext asBool relay) :
      Event.Places ev relay ev.author
  | listed (t : Tag) (kind : ev.kind = Kind.relayListMetadata)
      (tag : t ∈ ev.forEachTag (str "r")) (writes : t.additionalContent.head? ≠ some (str "read"))
      (relay : adjustRelayUrl t.content ≠ []) :
      Event.Places ev (adjustRelayUrl t.content) ev.author

end

variable {ext : External} {asBool : Structured → Option Bool}

/-- What is reached first is the head, or is reached in the rest when the head is passed. -/
theorem split_cons {α : Type} {P Q : α → Prop} {a : α} {l : List α} :
    (∃ before x after, a :: l = before ++ x :: after ∧ (∀ b ∈ before, P b) ∧ Q x) ↔
      Q a ∨ (P a ∧ ∃ before x after, l = before ++ x :: after ∧ (∀ b ∈ before, P b) ∧ Q x) := by
  constructor
  · rintro ⟨before, x, after, he, hbefore, hx⟩
    cases before with
    | nil =>
      cases he
      exact Or.inl hx
    | cons b before =>
      cases he
      obtain ⟨hb, hbefore⟩ := List.forall_mem_cons.mp hbefore
      exact Or.inr ⟨hb, before, x, after, rfl, hbefore, hx⟩
  · rintro (ha | ⟨ha, before, x, after, rfl, hbefore, hx⟩)
    · exact ⟨[], a, l, rfl, by simp, ha⟩
    · exact ⟨a :: before, x, after, rfl, List.forall_mem_cons.mpr ⟨ha, hbefore⟩, hx⟩

theorem mem_writeRelays {relay : Str} {kvs : List (Str × Structured)} :
    relay ∈ writeRelays asBool kvs ↔ relay ≠ [] ∧ ∃ before key value after,
      kvs = before ++ (key, value) :: after ∧
      (∀ kv ∈ before, asBool (kv.2.field (str "write")) ≠ none) ∧
      asBool (value.field (str "write")) = some true ∧ adjustRelayUrl key = relay := by
  induction kvs with
  | nil => simp [writeRelays]
  | cons kv kvs ih =>
    obtain ⟨key, value⟩ := kv
    have hfirst := split_cons (P := fun kv => asBool (kv.2.field (str "write")) ≠ none)
      (Q := fun kv => asBool (kv.2.field (str "write")) = some true ∧ adjustRelayUrl kv.1 = relay)
      (a := (key, value)) (l := kvs)
    simp only [Prod.exists] at hfirst
    rw [hfirst, writeRelays]
    cases hflag : asBool (value.field (str "write")) with
    | none => simp
    | some write =>
      cases write with
      | false => simp [ih]
      | true =>
        by_cases hurl : adjustRelayUrl key = []
        · simp only [hurl, ↓reduceIte, ih, true_and, ne_eq, reduceCtorEq, not_false_eq_true]
          constructor
          · rintro ⟨hne, hmore⟩
            exact ⟨hne, Or.inr hmore⟩
          · rintro ⟨hne, he | hmore⟩
            · exact absurd he.symm hne
            · exact ⟨hne, hmore⟩
        · simp only [hurl, ↓reduceIte, List.mem_cons, ih, true_and, ne_eq, reduceCtorEq,
            not_false_eq_true]
          constructor
          · rintro (rfl | ⟨hne, hmore⟩)
            · exact ⟨hurl, Or.inl rfl⟩
            · exact ⟨hne, Or.inr hmore⟩
          · rintro ⟨hne, he | hmore⟩
            · exact Or.inl he.symm
            · exact Or.inr ⟨hne, hmore⟩

theorem mem_mentionRows {ev : Event} (hmentions : ev.Mentions) (h : ev.SpellsUsers)
    (mem : Nat → Pubkey) : ((relay, user), level) ∈ mentionRows mem ev ↔
      (∃ t ∈ ev.forEachTag (str "p"), t.content.length = 64 ∧ Names t.content user ∧
        (t.additionalContent.head?.map adjustRelayUrl).getD [] = relay) ∧ level = ev.refLevel := by
  simp only [mentionRows, List.mem_map, List.mem_filter, decide_eq_true_eq, Prod.mk.injEq]
  constructor
  · rintro ⟨⟨t, i⟩, ⟨ht, hlong⟩, ⟨hrelay, huser⟩, rfl⟩
    have htag : t ∈ ev.forEachTag (str "p") := List.fst_mem_of_mem_zipIdx ht
    have hwritten := h hmentions t htag hlong
    exact ⟨⟨t, htag, hlong, ⟨hwritten, fun u => (fromHex_written hwritten u _).trans huser⟩,
      hrelay⟩, rfl⟩
  · rintro ⟨⟨t, htag, hlong, hnames, hrelay⟩, rfl⟩
    obtain ⟨i, hi⟩ := List.mem_iff_getElem?.mp htag
    exact ⟨(t, i), ⟨List.mem_zipIdx_iff_getElem?.mpr hi, hlong⟩, ⟨hrelay, hnames.2 _⟩, rfl⟩

theorem mem_contactRows {ev : Event} : ((relay, user), level) ∈ contactRows ext asBool ev ↔
    (ev.kind = Kind.contacts ∧ ev.WritesTo ext asBool relay ∧ user = ev.author) ∧
      level = ev.refLevel := by
  unfold contactRows Event.WritesTo
  by_cases hin : ev.kind = Kind.contacts ∧ ev.content ≠ []
  · obtain ⟨hkind, hcontent⟩ := hin
    cases hjson : ext.fromJson ev.content with
    | none => simp
    | some json =>
      simp only [hkind, hcontent, ne_eq, not_false_eq_true, and_self, ↓reduceIte, List.mem_map,
        mem_writeRelays, Prod.mk.injEq, true_and]
      constructor
      · rintro ⟨url, ⟨hne, hfound⟩, ⟨rfl, rfl⟩, rfl⟩
        obtain ⟨before, key, value, after, hkvs, hrest⟩ := hfound
        exact ⟨⟨⟨hne, json, before, key, value, after, rfl, hkvs, hrest⟩, rfl⟩, rfl⟩
      · rintro ⟨⟨⟨hne, json', before, key, value, after, he, hkvs, hrest⟩, rfl⟩, rfl⟩
        cases he
        exact ⟨relay, ⟨hne, before, key, value, after, hkvs, hrest⟩, ⟨rfl, rfl⟩, rfl⟩
  · rw [if_neg hin]
    simp only [List.not_mem_nil, false_iff]
    rintro ⟨⟨hkind, hwrites, -⟩, -⟩
    exact hin ⟨hkind, hwrites.1⟩

theorem mem_listRows {ev : Event} : ((relay, user), level) ∈ listRows ev ↔
    (∃ t ∈ ev.forEachTag (str "r"), t.additionalContent.head? ≠ some (str "read") ∧
      adjustRelayUrl t.content ≠ [] ∧ adjustRelayUrl t.content = relay ∧ user = ev.author) ∧
      level = ev.refLevel := by
  simp only [listRows, List.mem_map, List.mem_filter, decide_eq_true_eq, Prod.mk.injEq]
  constructor
  · rintro ⟨t, ⟨ht, hwrites, hrelay⟩, ⟨he, rfl⟩, rfl⟩
    exact ⟨⟨t, ht, hwrites, hrelay, he, rfl⟩, rfl⟩
  · rintro ⟨⟨t, ht, hwrites, hrelay, he, rfl⟩, rfl⟩
    exact ⟨t, ⟨ht, hwrites, hrelay⟩, ⟨he, rfl⟩, rfl⟩

theorem mentions_not_list {ev : Event} (h : ev.Mentions) : ev.kind ≠ Kind.relayListMetadata := by
  rcases h with h | h | h <;> rw [h] <;> decide

/-- Where the users are spelled out, the rows are what the event says, with its level. -/
theorem mem_routingIndexFn {ev : Event} (h : ev.SpellsUsers) (mem : Nat → Pubkey) :
    ((relay, user), level) ∈ routingIndexFn ext asBool mem (.event ev) ↔
      ev.Places ext asBool relay user ∧ level = ev.refLevel := by
  by_cases hmentions : ev.Mentions
  · have hindex : routingIndexFn ext asBool mem (.event ev) =
        mentionRows mem ev ++ contactRows ext asBool ev := if_pos hmentions
    rw [hindex, List.mem_append, mem_mentionRows hmentions h, mem_contactRows,
      ← or_and_right]
    refine and_congr_left (fun _ => ?_)
    constructor
    · rintro (⟨t, ht, hlong, hnames, rfl⟩ | ⟨hkind, hwrites, rfl⟩)
      · exact .mention t hmentions ht hlong hnames
      · exact .contact hkind hwrites
    · intro hplaces
      cases hplaces with
      | mention t kind tag long names => exact Or.inl ⟨t, tag, long, names, rfl⟩
      | contact kind writes => exact Or.inr ⟨kind, writes, rfl⟩
      | listed t kind tag writes relay => exact absurd kind (mentions_not_list hmentions)
  · by_cases hlist : ev.kind = Kind.relayListMetadata
    · have hindex : routingIndexFn ext asBool mem (.event ev) = listRows ev :=
        (if_neg hmentions).trans (if_pos hlist)
      rw [hindex, mem_listRows]
      refine and_congr_left (fun _ => ?_)
      constructor
      · rintro ⟨t, ht, hwrites, hrelay, rfl, rfl⟩
        exact .listed t hlist ht hwrites hrelay
      · intro hplaces
        cases hplaces with
        | mention t kind tag long names => exact absurd kind hmentions
        | contact kind writes => exact absurd (Or.inr (Or.inr kind)) hmentions
        | listed t kind tag writes relay => exact ⟨t, tag, writes, relay, rfl, rfl⟩
    · have hindex : routingIndexFn ext asBool mem (.event ev) = [] :=
        (if_neg hmentions).trans (if_neg hlist)
      simp only [hindex, List.not_mem_nil, false_iff]
      rintro ⟨hplaces, -⟩
      cases hplaces with
      | mention t kind tag long names => exact hmentions kind
      | contact kind writes => exact hmentions (Or.inr (Or.inr kind))
      | listed t kind tag writes relay => exact hlist kind

/-- Users spelled in full are read whatever the arrays held. -/
theorem routingIndexFn_spelled {d : EventOrAttachment} (h : ∀ ev, d = .event ev → ev.SpellsUsers)
    (mem mem' : Nat → Pubkey) :
    routingIndexFn ext asBool mem d = routingIndexFn ext asBool mem' d := by
  cases d with
  | attachment att => rfl
  | event ev =>
    by_cases hmentions : ev.Mentions
    · have hrows : mentionRows mem ev = mentionRows mem' ev := by
        apply List.map_congr_left
        rintro ⟨t, i⟩ ht
        obtain ⟨ht, hlong⟩ := List.mem_filter.mp ht
        have hwritten := h ev rfl hmentions t (List.fst_mem_of_mem_zipIdx ht) (by simpa using hlong)
        rw [fromHex_written hwritten (mem i) (mem' i)]
      have hindex (mem : Nat → Pubkey) : routingIndexFn ext asBool mem (.event ev) =
          mentionRows mem ev ++ contactRows ext asBool ev := if_pos hmentions
      rw [hindex, hindex, hrows]
    · exact (if_neg hmentions).trans (if_neg hmentions).symm

theorem routingIndexFn_oneValued {d : EventOrAttachment}
    (h : ∀ ev, d = .event ev → ev.SpellsUsers) (mem : Nat → Pubkey) :
    OneValued (routingIndexFn ext asBool mem) d := by
  rintro ⟨⟨relay, user⟩, level⟩ hp ⟨⟨relay', user'⟩, level'⟩ hq -
  cases d with
  | attachment att => cases hp
  | event ev =>
    have hlevel := ((mem_routingIndexFn (h ev rfl) mem).mp hp).2
    have hlevel' := ((mem_routingIndexFn (h ev rfl) mem).mp hq).2
    exact hlevel.trans hlevel'.symm

theorem routingLe_ranking :
    Ranking routingLe (fun r => r.key.1) (fun r => r.key.2.bytes) where
  iff r q := by simp [routingLe]
  key_irrefl := List.lt_irrefl
  key_trans := List.lt_trans
  key_total := Std.lt_trichotomy
  rank_trans := List.le_trans
  rank_total := List.le_total

/-- The level that `aggrDepth` arrives at, before it is cut to a byte. -/
theorem depth_fold (levels : List UInt8) (dist : UInt32) :
    let least := levels.foldl (fun dist d => if d.toUInt32 < dist then d.toUInt32 else dist) dist
    (least = dist ∨ ∃ d ∈ levels, least = d.toUInt32) ∧ least ≤ dist ∧
      ∀ d ∈ levels, least ≤ d.toUInt32 := by
  induction levels generalizing dist with
  | nil => simp
  | cons d levels ih =>
    by_cases hlt : d.toUInt32 < dist
    · obtain ⟨hmem, hle, hall⟩ := ih d.toUInt32
      simp only [List.foldl_cons, hlt, ↓reduceIte]
      refine ⟨Or.inr ?_, UInt32.le_trans hle (UInt32.le_of_lt hlt),
        List.forall_mem_cons.mpr ⟨hle, hall⟩⟩
      rcases hmem with he | ⟨l, hl, he⟩
      · exact ⟨d, List.mem_cons_self, he⟩
      · exact ⟨l, List.mem_cons_of_mem _ hl, he⟩
    · obtain ⟨hmem, hle, hall⟩ := ih dist
      simp only [List.foldl_cons, hlt, ↓reduceIte]
      refine ⟨hmem.imp_right ?_, hle, List.forall_mem_cons.mpr
        ⟨UInt32.le_trans hle (UInt32.not_lt.mp hlt), hall⟩⟩
      rintro ⟨l, hl, he⟩
      exact ⟨l, List.mem_cons_of_mem _ hl, he⟩

/-- No level is greater than the one that `aggrDepth` starts with. -/
theorem level_of_top {d : UInt8} (h : (255 : UInt32) ≤ d.toUInt32) : d = 255 := by
  have hle := UInt32.le_iff_toNat_le.mp h
  have hlt := d.toNat_lt
  apply UInt8.toNat_inj.mp
  simp only [UInt32.reduceToNat, UInt8.toNat_toUInt32] at hle
  simp only [UInt8.reduceToNat]
  omega

/-- The least of the levels. -/
theorem aggrDepth_least {levels : List UInt8} (hne : levels ≠ []) :
    IsLeast {l | l ∈ levels} (aggrDepth levels) := by
  obtain ⟨hmem, -, hall⟩ := depth_fold levels 255
  obtain ⟨d, hd, he⟩ : ∃ d ∈ levels, levels.foldl
      (fun dist d => if d.toUInt32 < dist then d.toUInt32 else dist) 255 = d.toUInt32 := by
    rcases hmem with he | hmem
    · obtain ⟨d, hd⟩ := List.exists_mem_of_ne_nil levels hne
      have htop : d = 255 := level_of_top (he ▸ hall d hd)
      exact ⟨d, hd, by rw [he, htop]; rfl⟩
    · exact hmem
  have hdepth : aggrDepth levels = d := by rw [aggrDepth, he, UInt8.toUInt8_toUInt32]
  rw [hdepth]
  refine ⟨hd, fun l hl => ?_⟩
  have hle := UInt32.le_iff_toNat_le.mp (he ▸ hall l hl)
  exact UInt8.le_iff_toNat_le.mpr (by simpa using hle)

namespace Routes
variable {db : EventStorage ext} {ix : MultiIndex (Str × Pubkey) UInt8}

def Legible (_ : Routes db ix) (x : StorageStep × RoutingMemory) : Prop :=
  ∀ ev old mem, x.1 = .put (.event ev) old mem → ev.SpellsUsers

variable (asBool) in
/-- The index has the rows of the stored documents, whose users are spelled out. -/
structure Inv (r : Routes db ix) : Prop where
  mirrors : ∀ mem, Mirrors (routingIndexFn ext asBool mem) (ix.rows r.index) (db.records r.storage)
  spelled : ∀ i ev, (i, .event ev) ∈ db.records r.storage → ev.SpellsUsers

theorem step_inv {r : Routes db ix} (h : r.Inv asBool) {x : StorageStep × RoutingMemory}
    (hx : r.Legible x) : (r.step asBool x).Inv asBool := by
  obtain ⟨x, mem⟩ := x
  have hout (i : DocID) (m : Nat → Pubkey) : ∀ d, (i, d) ∈ db.records r.storage →
      routingIndexFn ext asBool mem.erase d = routingIndexFn ext asBool m d := by
    rintro d hd
    exact routingIndexFn_spelled (fun ev he => h.spelled i ev (he ▸ hd)) _ _
  cases x with
  | put d old _ =>
    have hd : ∀ ev, d = .event ev → ev.SpellsUsers := fun ev he => hx ev old _ (by rw [he])
    cases hp : db.put r.storage d old with
    | none => simpa [step, hp] using h
    | some p =>
      obtain ⟨id, s'⟩ := p
      simp only [step, hp]
      refine ⟨fun m => ?_, fun i ev hev => ?_⟩
      · exact (h.mirrors m).put autocompact_compacts hp (hout old m)
          (routingIndexFn_spelled hd _ _) (routingIndexFn_oneValued hd m)
      · rcases (put_mem db autocompact_compacts hp _).mp hev with he | ⟨hev, -⟩
        · exact hd ev (congrArg Prod.snd he).symm
        · exact h.spelled i ev hev
  | erase i _ =>
    simp only [step]
    refine ⟨fun m => ?_, fun j ev hev => ?_⟩
    · exact (h.mirrors m).erase autocompact_compacts (hout i m)
        (routingIndexFn ext asBool mem.insert)
    · exact h.spelled j ev ((erase_mem db autocompact_compacts _ _ _).mp hev).1

theorem run_inv {steps : List (StorageStep × RoutingMemory)}
    (h : (machine asBool db ix).Throughout Legible steps) :
    ((machine asBool db ix).run steps).Inv asBool := by
  refine Machine.run_invariant (P := Inv asBool) ⟨fun mem e => ?_, fun i ev hev => ?_⟩
    (fun r x hr hx => step_inv hr hx) h
  · simp [machine, db.records_empty, ix.rows_empty]
  · rw [machine, db.records_empty] at hev
    cases hev

variable {r : Routes db ix}

def Holds (r : Routes db ix) (ev : Event) : Prop := ∃ i, (i, .event ev) ∈ db.records r.storage

/-- The rows are what the stored events say. -/
theorem Inv.mem_rows (h : r.Inv asBool) (relay : Str) (user : Pubkey) (level : UInt8) :
    (∃ i, ⟨(relay, user), i, level⟩ ∈ ix.rows r.index) ↔
      ∃ ev, r.Holds ev ∧ ev.Places ext asBool relay user ∧ ev.refLevel = level := by
  have hrow (i : DocID) := h.mirrors (fun _ => Binary.replicate 32 0) ⟨(relay, user), i, level⟩
  constructor
  · rintro ⟨i, hi⟩
    obtain ⟨d, hd, hemit⟩ := (hrow i).mp hi
    cases d with
    | attachment att => cases hemit
    | event ev =>
      obtain ⟨hplaces, rfl⟩ := (mem_routingIndexFn (h.spelled i ev hd) _).mp hemit
      exact ⟨ev, ⟨i, hd⟩, hplaces, rfl⟩
  · rintro ⟨ev, ⟨i, hi⟩, hplaces, rfl⟩
    exact ⟨i, (hrow i).mpr ⟨_, hi, (mem_routingIndexFn (h.spelled i ev hi) _).mpr
      ⟨hplaces, rfl⟩⟩⟩

theorem relays_ascend (r : Routes db ix) :
    KeysAscend (· < ·) (fun row : RoutingRow => row.key.1) r.selectAll :=
  (routingLe_ranking.sorted (ix.rows r.index)).imp (fun h =>
    ((routingLe_ranking.iff _ _).mp h).imp_right And.left)

theorem users_ascend (r : Routes db ix) (relay : Str) :
    KeysAscend (fun k l : Str × Pubkey => k.2.bytes < l.2.bytes) Entry.key (r.select relay) := by
  have hsorted := (routingLe_ranking.sorted (ix.rows r.index)).filter (fun row => row.key.1 = relay)
  refine hsorted.imp_of_mem (fun {p q} hp hq h => ?_)
  have hp : p.key.1 = relay := by simpa using (List.mem_filter.mp hp).2
  have hq : q.key.1 = relay := by simpa using (List.mem_filter.mp hq).2
  rcases (routingLe_ranking.iff _ _).mp h with hlt | ⟨-, hle⟩
  · exact absurd (hp ▸ hq ▸ hlt) (List.lt_irrefl _)
  · rcases Std.lt_trichotomy p.key.2.bytes q.key.2.bytes with hlt | he | hgt
    · exact Or.inl hlt
    · exact Or.inr (Prod.ext (hp.trans hq.symm) (Binary.ext he))
    · exact absurd hgt hle

/-- Each key is listed with the least level in its rows. -/
theorem mem_least [DecidableEq κ] (agg : AggregateBy) {key : RoutingRow → κ} {lt : κ → κ → Prop}
    (hirrefl : ∀ k, ¬ lt k k) (htrans : ∀ k l m, lt k l → lt l m → lt k m)
    {rows : List RoutingRow} (h : KeysAscend lt key rows) {k : κ} {level : UInt8} :
    (k, level) ∈ agg.recordset key (fun rows => aggrDepth (rows.map Entry.value)) rows ↔
      IsLeast {l | ∃ row ∈ rows, key row = k ∧ row.value = l} level := by
  have hlevels : {l | l ∈ (rows.filter (fun row => key row = k)).map Entry.value} =
      {l | ∃ row ∈ rows, key row = k ∧ row.value = l} := by
    ext l
    simp [and_assoc]
  rw [(agg.ascending hirrefl htrans _ h).2, ← hlevels]
  constructor
  · rintro ⟨⟨row, hrow, hk⟩, rfl⟩
    apply aggrDepth_least
    have hmem : row ∈ rows.filter (fun row => key row = k) := by simp [hrow, hk]
    exact List.ne_nil_of_mem (List.mem_map_of_mem hmem)
  · intro hleast
    obtain ⟨row, hrow, -⟩ := List.mem_map.mp hleast.1
    obtain ⟨hrow, hk⟩ := List.mem_filter.mp hrow
    have haggr := aggrDepth_least (List.ne_nil_of_mem hleast.1)
    exact ⟨⟨row, hrow, by simpa using hk⟩,
      UInt8.le_antisymm (hleast.2 haggr.1) (haggr.2 hleast.1)⟩

theorem recordset_relays (agg : AggregateBy) (h : r.Inv asBool) :
    (r.getKnownRelays agg).Pairwise (fun p q => p.1 < q.1) ∧
      ∀ relay level, (relay, level) ∈ r.getKnownRelays agg ↔
        IsLeast {l | ∃ user ev, r.Holds ev ∧ ev.Places ext asBool relay user ∧ ev.refLevel = l}
          level := by
  refine ⟨(agg.ascending List.lt_irrefl (fun _ _ _ => List.lt_trans) _ r.relays_ascend).1,
    fun relay level => ?_⟩
  rw [getKnownRelays, mem_least agg List.lt_irrefl (fun _ _ _ => List.lt_trans) r.relays_ascend]
  have hlevels : {l | ∃ row ∈ r.selectAll, row.key.1 = relay ∧ row.value = l} =
      {l | ∃ user ev, r.Holds ev ∧ ev.Places ext asBool relay user ∧ ev.refLevel = l} := by
    ext l
    simp only [Set.mem_ofPred_eq, selectAll, List.mem_mergeSort, ← h.mem_rows]
    constructor
    · rintro ⟨⟨⟨_, user⟩, i, _⟩, hrow, rfl, rfl⟩
      exact ⟨user, i, hrow⟩
    · rintro ⟨user, i, hrow⟩
      exact ⟨_, hrow, rfl, rfl⟩
  rw [hlevels]

theorem recordset_users (agg : AggregateBy) (h : r.Inv asBool) (relay : Str) :
    (r.getUsersOnRelay agg relay).Pairwise (fun p q => p.1.bytes < q.1.bytes) ∧
      ∀ user level, (user, level) ∈ r.getUsersOnRelay agg relay ↔
        IsLeast {l | ∃ ev, r.Holds ev ∧ ev.Places ext asBool relay user ∧ ev.refLevel = l}
          level := by
  have hirrefl : ∀ k : Str × Pubkey, ¬ k.2.bytes < k.2.bytes := fun _ => List.lt_irrefl _
  have htrans : ∀ k l m : Str × Pubkey, k.2.bytes < l.2.bytes → l.2.bytes < m.2.bytes →
      k.2.bytes < m.2.bytes := fun _ _ _ => List.lt_trans
  have hsorted := r.users_ascend relay
  refine ⟨List.pairwise_map.mpr (agg.ascending hirrefl htrans _ hsorted).1, fun user level => ?_⟩
  have hpair : (user, level) ∈ r.getUsersOnRelay agg relay ↔ ((relay, user), level) ∈
      agg.recordset (fun row : RoutingRow => row.key)
        (fun rows => aggrDepth (rows.map Entry.value)) (r.select relay) := by
    simp only [getUsersOnRelay, List.mem_map, Prod.mk.injEq]
    constructor
    · rintro ⟨⟨⟨relay', user⟩, level⟩, hp, rfl, rfl⟩
      obtain ⟨⟨row, hrow, hk⟩, -⟩ := ((agg.ascending hirrefl htrans _ hsorted).2 _ _).mp hp
      have hrelay : row.key.1 = relay := by simpa using (List.mem_filter.mp hrow).2
      rw [hk] at hrelay
      exact hrelay ▸ hp
    · intro hp
      exact ⟨_, hp, rfl, rfl⟩
  rw [hpair, mem_least agg hirrefl htrans hsorted]
  have hlevels : {l | ∃ row ∈ r.select relay, row.key = (relay, user) ∧ row.value = l} =
      {l | ∃ ev, r.Holds ev ∧ ev.Places ext asBool relay user ∧ ev.refLevel = l} := by
    ext l
    simp only [Set.mem_ofPred_eq, select, selectAll, List.mem_filter, List.mem_mergeSort,
      decide_eq_true_eq, ← h.mem_rows]
    constructor
    · rintro ⟨⟨_, i, _⟩, ⟨hrow, -⟩, rfl, rfl⟩
      exact ⟨i, hrow⟩
    · rintro ⟨i, hrow⟩
      exact ⟨_, ⟨hrow, rfl⟩, rfl, rfl⟩
  rw [hlevels]

theorem places_adjusted {ev : Event} (h : ev.Places ext asBool relay user) :
    adjustRelayUrl relay = relay := by
  cases h with
  | mention t kind tag long names =>
    cases t.additionalContent.head? with
    | none => rfl
    | some url => exact adjustRelayUrl_adjusted url
  | contact kind writes =>
    obtain ⟨-, -, json, before, key, value, after, -, -, -, -, rfl⟩ := writes
    exact adjustRelayUrl_adjusted key
  | listed t kind tag writes relay => exact adjustRelayUrl_adjusted t.content

/-- In every run of the storage whose events spell out their users, the relays that are listed
are those that stored events put users on, each once and adjusted, and the users of a relay
those that they put there, each once; with the least level of such an event. -/
theorem routing_listed (agg : AggregateBy) {steps : List (StorageStep × RoutingMemory)}
    (h : (machine asBool db ix).Throughout Legible steps) :
    let r := (machine asBool db ix).run steps
    (r.getKnownRelays agg).Pairwise (fun p q => p.1 < q.1) ∧
      (∀ relay level, (relay, level) ∈ r.getKnownRelays agg ↔
        IsLeast {l | ∃ user ev, r.Holds ev ∧ ev.Places ext asBool relay user ∧ ev.refLevel = l}
          level) ∧
      (∀ p ∈ r.getKnownRelays agg, adjustRelayUrl p.1 = p.1) ∧
      ∀ relay, (r.getUsersOnRelay agg relay).Pairwise (fun p q => p.1.bytes < q.1.bytes) ∧
        ∀ user level, (user, level) ∈ r.getUsersOnRelay agg relay ↔
          IsLeast {l | ∃ ev, r.Holds ev ∧ ev.Places ext asBool relay user ∧ ev.refLevel = l}
            level := by
  intro r
  have hinv : r.Inv asBool := run_inv h
  obtain ⟨hascend, hrelays⟩ := recordset_relays agg hinv
  refine ⟨hascend, hrelays, ?_, recordset_users agg hinv⟩
  rintro ⟨relay, level⟩ hp
  obtain ⟨user, ev, -, hplaces, -⟩ := ((hrelays relay level).mp hp).1
  exact places_adjusted hplaces

def placing : Event :=
  { Books.mention with
    tags := [⟨str "p", Books.mentionedKey.toHex, [str "wss://relay.example/"]⟩] }

def flagOf : Structured → Option Bool
  | .bool b => some b
  | _ => none

/-- The same placing by an event two references away. -/
def farPlacing : Event := { placing with id := note.id, refLevel := 2 }

/-- Both placings are stored, and the nearer one erased. -/
def placed : List (StorageStep × RoutingMemory) :=
  [.put (.event placing) 0 .zeros, .put (.event farPlacing) 0 .zeros, .erase 1 .zeros].map
    (fun step => (step, ⟨fun _ => .ofNat 0, fun _ => .ofNat 0⟩))

/-- With the nearer one goes the lesser level. -/
theorem placing_listed :
    let books := machine flagOf Books.sampleBooks (plainIndex _ _)
    (books.run (placed.take 2)).getKnownRelays plainAggregate = [(str "wss://relay.example", 0)] ∧
      (books.run placed).getKnownRelays plainAggregate = [(str "wss://relay.example", 2)] ∧
      IsLeast {l | ∃ user ev, (books.run placed).Holds ev ∧ ev.Places (tabled [] [] []) flagOf
        (str "wss://relay.example") user ∧ ev.refLevel = l} 2 := by
  intro books
  have hlegible : books.Throughout Legible placed := by
    intro pre x post he ev old mem hput
    have hx : x ∈ placed := by simp [he]
    simp only [placed, List.map_cons, List.map_nil, List.mem_cons, List.not_mem_nil,
      or_false] at hx
    rcases hx with rfl | rfl | rfl <;> cases hput <;> exact fun _ => by decide +kernel
  have hboth : (books.run (placed.take 2)).getKnownRelays plainAggregate =
      [(str "wss://relay.example", 0)] := by
    have hsorted : ((plainIndex _ _).rows (books.run (placed.take 2)).index).Pairwise
        (fun r q => routingLe r q = true) := by decide +kernel
    rw [getKnownRelays, selectAll, List.mergeSort_of_pairwise hsorted]
    decide +kernel
  have hlisted : (books.run placed).getKnownRelays plainAggregate =
      [(str "wss://relay.example", 2)] := by decide +kernel
  refine ⟨hboth, hlisted, ((routing_listed plainAggregate hlegible).2.1 _ _).mp ?_⟩
  change _ ∈ (books.run placed).getKnownRelays plainAggregate
  rw [hlisted]
  exact List.mem_singleton_self _

end Routes

end NostrServer
