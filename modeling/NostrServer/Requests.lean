import NostrServer.Relevance
import NostrServer.Replies
import NostrServer.Removal
import NostrServer.Subscriptions

namespace NostrServer
open Docdb

variable {rl : Relay}

def atMost : Option Nat → Nat → Nat
  | none, n => n
  | some l, n => min l n

theorem length_upTo {α : Type} (limit : Option Nat) (l : List α) :
    (upTo limit l).length = atMost limit l.length := by
  cases limit with
  | none => rfl
  | some n => exact List.length_take

namespace App

theorem ordered_sorted (a : App rl) {fs : List Filter}
    (hasks : ∀ f ∈ fs, f.unrestricted = false) :
    a.ordered fs = (rl.engine.sort (a.candidates fs)).map Prod.fst := by
  rw [ordered, rl.engine.findInIndex_lists a.records hasks]
  rfl

/-- An answer has each event that the indexes find and a filter passes, once. -/
theorem accepted_ordered_perm {a : App rl} (hv : a.Valid) {fs : List Filter}
    (hasks : ∀ f ∈ fs, f.unrestricted = false) :
    (a.accepted fs (a.ordered fs)).Perm (a.asked fs) :=
  a.ordered_sorted hasks ▸ accepted_perm hv hasks (rl.engine.sort_perm _)

theorem kept_stored {a : App rl} (hv : a.Valid) {i : DocID} (h : (i, .event ev) ∈ a.records) :
    a.kept ev = rl.engine.kept a.records i := by
  rcases a.findEventById_spec ev.id with ⟨-, hno⟩ | ⟨ev', hev', hid⟩
  · exact absurd rfl (hno i ev h)
  · rw [kept, (hv.same_event hev' h hid).1]

/-- An answer goes from the more relevant to the less relevant. -/
theorem answering_ranked {a : App rl} (hv : a.Valid) {fs : List Filter}
    (hasks : ∀ f ∈ fs, f.unrestricted = false) :
    (a.answering fs).Pairwise (fun e e' =>
      relevance rl.ext (a.kept e') fs e' ≤ relevance rl.ext (a.kept e) fs e) := by
  refine List.Pairwise.sublist (upTo_isPrefix _ _).sublist ?_
  rw [ordered_sorted a hasks]
  refine List.pairwise_filterMap.mpr (List.pairwise_map.mpr
    ((rl.engine.sort_sorted (a.candidates fs)).imp_of_mem ?_))
  rintro ⟨i, v⟩ ⟨j, w⟩ hi hj hlt e he e' he'
  have carries {k : DocID} {x : OrderingItem} {ev : Event}
      (hk : (k, x) ∈ rl.engine.sort (a.candidates fs)) (hev : (k, .event ev) ∈ a.records) :
      carried x = relevance rl.ext (a.kept ev) fs ev := by
    rw [kept_stored hv hev]
    exact rl.engine.findInIndex_relevance (a.store hv) ((store_has hv).mpr hev) hasks
      ((rl.engine.sort_perm _).mem_iff.mp hk)
  rw [← carries hi (accepted_stored he), ← carries hj (accepted_stored he')]
  by_contra hless
  exact hlt ((orderingLt_iff v w).mpr (Or.inl (Nat.lt_of_not_le hless)))

end App

namespace Session

/-- How a REQ is handled: over a stream that ends early the subscription is not made. -/
theorem handle_req (s : Session rl) (conn : Nat) {c : Circumstance}
    (hreq : Commands rl (.text payload) (str "REQ") msg) {subid : Str}
    (hid : rl.ext.asString (msg.item 1) = some subid) {flts : List Filter}
    (hflts : requestFilters rl.ext c.mem msg.items = some flts) :
    let sent := streamed c.takes 0 (s.app.answering flts)
    s.handle conn (.text payload) c =
      ({ s with
        peer := if sent.2 then
          { s.peer with subscriptions := s.peer.subscriptions ++ [(subid, flts)] } else s.peer
        out := s.out ++ complaint rl payload ++ sent.1.map (s.app.eventReply subid) ++
          if sent.2 then [.eose subid] else [] }, true) := by
  intro sent
  obtain ⟨_, hf, hmsg, hcmd⟩ := hreq
  cases hf
  have hne : str "REQ" ≠ str "EVENT" := by decide
  have hreq (o : List Reply) : { s with out := o }.onReq c msg = some { s with
      peer := if sent.2 then
        { s.peer with subscriptions := s.peer.subscriptions ++ [(subid, flts)] } else s.peer
      out := o ++ sent.1.map (s.app.eventReply subid) ++
        if sent.2 then [.eose subid] else [] } := by
    have hsent := storedAnswer_streamed { s with out := o } c.takes flts subid
    simp only [onReq, hid, hflts, hsent]
    cases sent.2 <;> simp [sent]
  by_cases hlong : payload.length > rl.options.maxMessageSize
  · simp only [handle, processMessage, complaint, hlong, hmsg, hcmd, hne, sendNotice, send, hreq,
      ↓reduceIte, Option.getD_some]
  · have hsame : s = { s with out := s.out } := rfl
    simp only [handle, processMessage, complaint, hlong, hmsg, hcmd, hne, ↓reduceIte]
    rw [hsame, hreq, List.append_nil]
    rfl

end Session

namespace Server

/-- In every reachable state a request whose filters each ask for something, over an open
stream, is answered with stored events that its filters pass, none of them twice: as many
as the indexes select and the filters pass, or as the limit allows. Then comes one EOSE,
and the subscription is there. -/
theorem req_answered (inputs : List Input) (hp : (run rl inputs).peers conn = some p)
    (hreq : Commands rl (.text payload) (str "REQ") msg) {subid : Str}
    (hid : rl.ext.asString (msg.item 1) = some subid) {flts : List Filter}
    (hflts : Session.requestFilters rl.ext c.mem msg.items = some flts)
    (hasks : ∀ flt ∈ flts, flt.unrestricted = false)
    (hopen : ∀ n, c.takes n = true) :
    let sv := run rl inputs
    let sv' := sv.step (.frame conn (.text payload) c)
    ∃ evs : List Event,
      sv'.told conn = sv.told conn ++ (Session.complaint rl payload ++
        evs.map (sv.app.eventReply subid) ++ [.eose subid]) ∧
      evs.Nodup ∧ (∀ ev ∈ evs, ev ∈ sv.app.events ∧ foundBy rl.ext flts ev = true ∧
        matchedBy rl.ext.hasher flts ev = true) ∧
      evs.length = atMost (Session.reqLimit flts) (sv.app.events.countP (fun ev =>
        foundBy rl.ext flts ev && matchedBy rl.ext.hasher flts ev)) ∧
      ∃ p', sv'.peers conn = some p' ∧ (subid, flts) ∈ p'.subscriptions := by
  intro sv sv'
  have hv : sv.app.Valid := (run_regular inputs).valid
  have hhandle := (sv.session p).handle_req conn hreq hid hflts
  rw [streamed_open hopen] at hhandle
  have hperm := App.accepted_ordered_perm hv hasks
  have hsub : (sv.app.answering flts).Sublist (sv.app.accepted flts (sv.app.ordered flts)) :=
    (upTo_isPrefix _ _).sublist
  refine ⟨sv.app.answering flts, ?_, ?_, fun ev hev => ?_, ?_, ?_⟩
  · rw [told_append (sv.step_sent hp (.text payload) c) conn, hhandle]
    simp [session, List.filter_map, Function.comp_def]
  · exact (hperm.nodup_iff.mpr ((App.events_nodup hv).filter _)).sublist hsub
  · exact App.mem_asked.mp (hperm.mem_iff.mp (hsub.mem hev))
  · unfold App.answering
    rw [length_upTo, hperm.length_eq, App.asked, ← List.countP_eq_length_filter]
  · refine ⟨{ p with subscriptions := p.subscriptions ++ [(subid, flts)] }, ?_, by simp⟩
    have hpeer : sv.peers conn = some p := hp
    change (sv.step _).peers conn = _
    simp only [step, hpeer, hhandle, setPeer, ↓reduceIte]
    rfl

/-- Where one note is stored, a request for notes gets that many. -/
theorem note_requested : ∃ evs : List Event, evs.length = 1 ∧
    ((run (deletionRelay (reqMessage 1)) noteSent).step
      (.frame 0 (.text (jsonText (reqMessage 1))) { mem := .zeros, now := 0 })).told 0 =
      (run (deletionRelay (reqMessage 1)) noteSent).told 0 ++
        (Session.complaint (deletionRelay (reqMessage 1)) (jsonText (reqMessage 1)) ++
          evs.map ((run (deletionRelay (reqMessage 1)) noteSent).app.eventReply (str "q")) ++
          [.eose (str "q")]) := by
  have hpeer : ((run (deletionRelay (reqMessage 1)) noteSent).peers 0).isSome = true := by
    decide +kernel
  obtain ⟨p, hp⟩ := Option.isSome_iff_exists.mp hpeer
  have hreq : Commands (deletionRelay (reqMessage 1)) (.text (jsonText (reqMessage 1)))
      (str "REQ") (reqMessage 1) := by
    refine ⟨_, rfl, ?_, rfl⟩
    have hne : jsonText noteMessage ≠ jsonText (reqMessage 1) := by decide +kernel
    simp [deletionRelay, sampleRelay, plainRelay, plainEngine, tabled, Relay.ext, hne]
  have hflts : Session.requestFilters (deletionRelay (reqMessage 1)).ext Memory.zeros
      (reqMessage 1).items = some [{ kinds := [1] }] := by decide +kernel
  have hid : (deletionRelay (reqMessage 1)).ext.asString ((reqMessage 1).item 1) =
      some (str "q") := External.asString_string _ _
  obtain ⟨evs, htold, -, -, hlength, -⟩ := req_answered noteSent hp hreq hid hflts
    (c := { mem := .zeros, now := 0 }) (by decide) (fun _ => rfl)
  exact ⟨evs, hlength.trans (by decide +kernel), htold⟩

/-- In every reachable state the events that answer a request whose filters each ask for
something come in the order of their relevance, the best match first, wherever the stream
ends. What a word that is searched for counts for is how well a word of the event goes with
it, the one that the calculator has kept. -/
theorem best_match_first (inputs : List Input) (hp : (run rl inputs).peers conn = some p)
    (hreq : Commands rl (.text payload) (str "REQ") msg) {subid : Str}
    (hid : rl.ext.asString (msg.item 1) = some subid) {flts : List Filter}
    (hflts : Session.requestFilters rl.ext c.mem msg.items = some flts)
    (hasks : ∀ flt ∈ flts, flt.unrestricted = false) :
    let sv := run rl inputs
    ∃ (evs : List Event) (through : Bool),
      (sv.step (.frame conn (.text payload) c)).told conn = sv.told conn ++
        (Session.complaint rl payload ++ evs.map (sv.app.eventReply subid) ++
          if through then [.eose subid] else []) ∧
      evs.Pairwise (fun e e' => relevance rl.ext (sv.app.kept e') flts e' ≤
        relevance rl.ext (sv.app.kept e) flts e) ∧
      ∀ ev ∈ evs, ∀ tk, ev.HasWord rl.ext tk → ev.Matches rl.ext tk (sv.app.kept ev tk) := by
  intro sv
  have hv : sv.app.Valid := (run_regular inputs).valid
  have hhandle := (sv.session p).handle_req conn hreq hid hflts
  have hsent := (streamed_isPrefix c.takes 0 (sv.app.answering flts)).sublist
  have hranked := (App.answering_ranked hv hasks).sublist hsent
  have hkept : ∀ ev ∈ (streamed c.takes 0 (sv.app.answering flts)).1, ∀ tk,
      ev.HasWord rl.ext tk → ev.Matches rl.ext tk (sv.app.kept ev tk) := by
    intro ev hev tk hword
    obtain ⟨i, -, hi, -⟩ := App.mem_accepted.mp ((upTo_isPrefix _ _).subset (hsent.subset hev))
    rw [App.kept_stored hv hi]
    exact rl.engine.kept_matches (sv.app.store hv) ((App.store_has hv).mpr hi) hword
  have happ : (sv.session p).app = sv.app := rfl
  rw [happ] at hhandle
  generalize streamed c.takes 0 (sv.app.answering flts) = sent at hhandle hranked hkept
  obtain ⟨evs, through⟩ := sent
  refine ⟨evs, through, ?_, hranked, hkept⟩
  rw [told_append (sv.step_sent hp (.text payload) c) conn, hhandle]
  cases through <;> simp [session, List.filter_map, Function.comp_def]

def helloNote : Event := Event.parsed
  { kind := 1, createdAt := 1700000000, content := str "hello"
    id := .ofNat 0xa9d53fee641fe563de947fa330a3b4902e52e249894660aaa521cd039e896128
    author := note.author
    sig := .ofNat 0x3ed440e88bd49699e7827e60db9eaee0af7468afdb3b2c253301aa592d00c7e08c5e0f64811944b6151f8959d21c1b0b484f0f6d396bce6285e2445496e75e28 }

def helloText : Str :=
  str "[0,\"f9308a019258c31049344f85f89d5229b531c845836f99b08601f113bce036f9\",1700000000,1,[],\"hello\"]"

def helpNote : Event := Event.parsed
  { kind := 1, createdAt := 1700000001, content := str "help"
    id := .ofNat 0x2527c552aaf4ad5077717e1574d76787c7768367256c5cfcb80f831515bff5e9
    author := note.author
    sig := .ofNat 0xa2c799fade244e5581ae1f9fe7b593330b22ec8f1e686dec28aac1ea746ed25e0083be5f5be8ae57f31f639252a3f78091d6f4537a3a07c4987a93c1d3cf16a3 }

def helpText : Str :=
  str "[0,\"f9308a019258c31049344f85f89d5229b531c845836f99b08601f113bce036f9\",1700000001,1,[],\"help\"]"

def searchMessage : Structured :=
  .array [.string (str "REQ"), .string (str "q"),
    .object [(str "search", .string (str "hel"))]]

def helloMessage : Structured := helloNote.command "EVENT" helloNote.id.toHex

def helpMessage : Structured := helpNote.command "EVENT" helpNote.id.toHex

def searchRelay : Relay :=
  sampleRelay {} [(helloText, helloNote), (helpText, helpNote)]
    [helloMessage, helpMessage, searchMessage]

def wordsSent : List Input :=
  [arrival, helloMessage.sent Memory.zeros, helpMessage.sent Memory.zeros]

/-- A search for what their words start with. -/
theorem help_before_hello : ∃ (evs : List Event) (through : Bool),
    ((run searchRelay wordsSent).step (searchMessage.sent Memory.zeros)).told 0 =
      (run searchRelay wordsSent).told 0 ++
        (Session.complaint searchRelay (jsonText searchMessage) ++
          evs.map ((run searchRelay wordsSent).app.eventReply (str "q")) ++
          if through then [.eose (str "q")] else []) ∧
    evs.Pairwise (fun e e' =>
      relevance searchRelay.ext ((run searchRelay wordsSent).app.kept e')
        [{ ftSearch := str "hel" }] e' ≤
      relevance searchRelay.ext ((run searchRelay wordsSent).app.kept e)
        [{ ftSearch := str "hel" }] e) ∧
    ∀ ev ∈ evs, ∀ tk, ev.HasWord searchRelay.ext tk →
      ev.Matches searchRelay.ext tk ((run searchRelay wordsSent).app.kept ev tk) := by
  have hpeer : ((run searchRelay wordsSent).peers 0).isSome = true := by decide +kernel
  obtain ⟨p, hp⟩ := Option.isSome_iff_exists.mp hpeer
  have hreq : Commands searchRelay (.text (jsonText searchMessage)) (str "REQ") searchMessage := by
    refine ⟨_, rfl, ?_, rfl⟩
    have hne : jsonText helloMessage ≠ jsonText searchMessage := by decide +kernel
    have hne' : jsonText helpMessage ≠ jsonText searchMessage := by decide +kernel
    simp [searchRelay, sampleRelay, plainRelay, plainEngine, tabled, Relay.ext, hne, hne']
  have hid : searchRelay.ext.asString (searchMessage.item 1) = some (str "q") :=
    External.asString_string _ _
  have hflts : Session.requestFilters searchRelay.ext Memory.zeros searchMessage.items =
      some [{ ftSearch := str "hel" }] := by decide +kernel
  exact best_match_first wordsSent hp hreq (c := { mem := .zeros, now := 0 }) hid hflts (by decide)

end Server

end NostrServer
