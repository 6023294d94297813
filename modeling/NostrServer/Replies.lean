import NostrServer.Lib.Transcript
import NostrServer.Newest
import NostrServer.Oversize
import NostrServer.Steps

namespace NostrServer
open Docdb

variable {rl : Relay}

namespace App

def ordered (a : App rl) (fs : List Filter) : List DocID :=
  if rl.engine.sets.inverted (rl.engine.findInIndex a.records fs) then []
  else (rl.engine.sort (a.candidates fs)).map Prod.fst

def answering (a : App rl) (fs : List Filter) : List Event :=
  upTo (Session.reqLimit fs) (a.accepted fs (a.ordered fs))

end App

namespace Session

theorem storedAnswer_streamed (s : Session rl) (takes : Nat → Bool) (fs : List Filter)
    (subid : Str) : s.storedAnswer takes fs subid =
      ((streamed takes 0 (s.app.answering fs)).1.map (s.app.eventReply subid),
        (streamed takes 0 (s.app.answering fs)).2) := by
  unfold storedAnswer App.answering App.ordered
  dsimp only
  split
  · cases reqLimit fs <;> simp [App.accepted, upTo, streamed]
  · exact s.app.answer_streamed takes fs subid _ 0 _

def complaint (rl : Relay) (payload : Str) : List Reply :=
  if payload.length > rl.options.maxMessageSize then [.notice (str "Text message is too long")]
  else []

/-- The id under which an event is acknowledged: the one the message spells, or for a
deletion request that was carried out the one that was read from it. -/
def Acknowledges (rl : Relay) (c : Circumstance) (m : Structured) (id : Str) : Prop :=
  (rl.ext.asString (m.field (str "id"))).getD [] = id ∨
  ∃ ev, Event.fromStructured rl.ext c.mem.event m = .ok ev ∧ ev.kind = Kind.eventDeletion ∧
    id = ev.id.toHex

/-- The answer to a command. -/
inductive Answers (s : Session rl) (c : Circumstance) (msg : Structured) :
    Str → List Reply → Prop where
  | event (id text : Str) (accepted : Bool) (names : Acknowledges rl c (msg.item 1) id) :
      Answers s c msg (str "EVENT") [.ok id accepted text]
  | file (id text : Str) (accepted : Bool) (names : Acknowledges rl c (msg.item 1) id) :
      Answers s c msg (str "FILE") [.ok id accepted text]
  | auth (id text : Str) (accepted : Bool)
      (names : rl.ext.asStringView ((msg.item 1).field (str "id")) = some id) :
      Answers s c msg (str "AUTH") [.ok id accepted text]
  | req (subid : Str) (flts : List Filter) (names : rl.ext.asString (msg.item 1) = some subid)
      (asks : requestFilters rl.ext c.mem msg.items = some flts) :
      Answers s c msg (str "REQ")
        ((streamed c.takes 0 (s.app.answering flts)).1.map (s.app.eventReply subid) ++
          if (streamed c.takes 0 (s.app.answering flts)).2 then [.eose subid] else [])
  | count (subid : Str) (flts : List Filter) (names : rl.ext.asString (msg.item 1) = some subid)
      (asks : requestFilters rl.ext c.mem msg.items = some flts) :
      Answers s c msg (str "COUNT") [.count subid (s.app.candidates flts).length]
  | close (id : Str) (names : rl.ext.asString (msg.item 1) = some id) :
      Answers s c msg (str "CLOSE") []
  | retrieved (id : Str) (att : Attachment) (names : rl.ext.asString (msg.item 1) = some id)
      (there : s.retrievable c.mem id = some att) :
      Answers s c msg (str "RETRIEVE") [.ok id true [], .binary att.data]
  | missing (id : Str) (names : rl.ext.asString (msg.item 1) = some id)
      (gone : s.retrievable c.mem id = none) :
      Answers s c msg (str "RETRIEVE") [.retrieve id false (str "missing: not found")]
  | unconverted (cmd : Str) (known : cmd ∈ [str "REQ", str "COUNT", str "CLOSE", str "RETRIEVE"])
      (wrong : rl.ext.asString (msg.item 1) = none ∨
        requestFilters rl.ext c.mem msg.items = none) :
      Answers s c msg cmd [.notice (str "error: Internal error - command ignored")]
  | unnamed (wrong : rl.ext.asStringView ((msg.item 1).field (str "id")) = none) :
      Answers s c msg (str "AUTH") [.notice (str "error: Internal error - command ignored")]
  | unknown (cmd : Str) (other : cmd ∉ [str "EVENT", str "REQ", str "COUNT", str "CLOSE",
      str "AUTH", str "FILE", str "RETRIEVE"]) :
      Answers s c msg cmd [.notice (str "Unknown command: " ++ cmd)]

/-- The answer to a frame. -/
inductive Replies (s : Session rl) (c : Circumstance) : Frame → List Reply → Prop where
  | unread (payload : Str) (unread : ∀ msg, rl.ext.fromJson payload = some msg →
      rl.ext.asStringView (msg.item 0) = none) :
      Replies s c (.text payload)
        (complaint rl payload ++ [.notice (str "error: Internal error - command ignored")])
  | command (payload cmd : Str) (msg : Structured) (replies : List Reply)
      (read : rl.ext.fromJson payload = some msg)
      (named : rl.ext.asStringView (msg.item 0) = some cmd)
      (answers : Answers s c msg cmd replies) :
      Replies s c (.text payload) (complaint rl payload ++ replies)
  | upload (payload : Str) (ev : Event) (accepted : Bool) (text : Str)
      (pending : s.peer.fileEvent = some ev) :
      Replies s c (.binary payload) [.ok ev.id.toHex accepted text]
  | stray (payload : Str) (pending : s.peer.fileEvent = none) :
      Replies s c (.binary payload) [.notice (str "unsupported binary message")]
  | closed : Replies s c .connClose []
  | large : Replies s c .largeFrame [.notice (str "Message too large")]
  | other : Replies s c .other []

theorem caught_out (s : Session rl) (id : Str) (e : Exn) :
    ∃ accepted text, (s.caught id e).out = s.out ++ [.ok id accepted text] := by
  cases e <;> exact ⟨_, _, rfl⟩

theorem eventDeletion_out {s s' : Session rl} (h : s.eventDeletion mem self ev = .ok s') :
    s'.out = s.out ++ [.ok ev.id.toHex true []] := by
  unfold eventDeletion at h
  dsimp only at h
  split at h
  · cases h
  split at h
  · cases h
  · cases h
    rfl

section
variable {onVerify : Str → Event → Session rl → Except Exn (Session rl)}

/-- From the signature on an event is acknowledged once. -/
theorem verified_out (hverify : ∀ {id ev s s'}, onVerify id ev s = .ok s' →
      ∃ accepted text, s'.out = s.out ++ [.ok id accepted text]) (s : Session rl) (mem : Memory)
    (conn : Nat) (noSpecialEvents : Bool) (id : Str) (ev : Event) :
    ∃ id' accepted text, (id' = id ∨ (ev.kind = Kind.eventDeletion ∧ id' = ev.id.toHex)) ∧
      (s.verified mem conn noSpecialEvents id ev onVerify).out =
        s.out ++ [.ok id' accepted text] := by
  have caught {s₁ : Session rl} (hout : s₁.out = s.out) (e : Exn) : ∃ id' accepted text,
      (id' = id ∨ (ev.kind = Kind.eventDeletion ∧ id' = ev.id.toHex)) ∧
      (s₁.caught id e).out = s.out ++ [.ok id' accepted text] := by
    obtain ⟨accepted, text, h⟩ := s₁.caught_out id e
    exact ⟨id, accepted, text, Or.inl rfl, hout ▸ h⟩
  unfold verified
  split
  · exact caught rfl _
  split
  · split
    · exact caught rfl _
    · exact ⟨id, true, [], Or.inl rfl, rfl⟩
  split
  · exact caught rfl _
  obtain ⟨-, hout, -, -⟩ := s.whitelistCheck_spec mem ev
  generalize s.whitelistCheck mem ev = checked at hout ⊢
  obtain ⟨s₁, thrown⟩ := checked
  cases thrown with
  | some e => exact caught hout e
  | none =>
    dsimp only at hout ⊢
    split
    · rename_i s' hdone
      unfold store at hdone
      split at hdone
      · rename_i hk
        split at hdone
        · cases hdone
        · exact ⟨_, _, _, Or.inr ⟨hk, rfl⟩, hout ▸ eventDeletion_out hdone⟩
      · obtain ⟨accepted, text, h⟩ := hverify hdone
        exact ⟨id, accepted, text, Or.inl rfl, hout ▸ h⟩
    · exact caught hout _

/-- An event is acknowledged once, whatever becomes of it. -/
theorem onEventGeneric_out (hverify : ∀ {id ev s s'}, onVerify id ev s = .ok s' →
      ∃ accepted text, s'.out = s.out ++ [.ok id accepted text]) (s : Session rl)
    (c : Circumstance) (conn : Nat) (m : Structured) (noSpecialEvents : Bool) :
    ∃ id accepted text, Acknowledges rl c m id ∧
      (s.onEventGeneric c conn m onVerify noSpecialEvents).out =
        s.out ++ [.ok id accepted text] := by
  unfold onEventGeneric
  split
  · rename_i htext
    obtain ⟨accepted, text, h⟩ := s.caught_out [] .badCast
    exact ⟨[], accepted, text, Or.inl (by rw [htext]; rfl), h⟩
  rename_i id htext
  have names : Acknowledges rl c m id := Or.inl (by rw [htext]; rfl)
  split
  · rename_i e _
    obtain ⟨accepted, text, h⟩ := s.caught_out id e
    exact ⟨id, accepted, text, names, h⟩
  rename_i ev hparsed
  split
  · exact ⟨id, _, _, names, rfl⟩
  obtain ⟨-, -, hout, -, -⟩ := s.limited_quiet c.now
  have htrust := s.trust_limited c.now ev
  generalize s.limited c.now = lim at hout htrust ⊢
  obtain ⟨allowed, s₁⟩ := lim
  dsimp only at hout htrust
  rw [← hout]
  cases allowed with
  | false => exact ⟨id, _, _, names, rfl⟩
  | true =>
    dsimp only
    split
    · exact ⟨id, _, _, names, rfl⟩
    obtain ⟨id', accepted, text, hid, h⟩ :=
      verified_out hverify s₁ c.mem conn noSpecialEvents id (s₁.trust ev)
    refine ⟨id', accepted, text, ?_, h⟩
    rcases hid with rfl | ⟨hk, rfl⟩
    · exact names
    · rw [trust_id]
      refine Or.inr ⟨ev, hparsed, ?_, rfl⟩
      rcases s₁.trust_cases ev with ht | ⟨_, _, ht⟩ <;> rw [ht] at hk <;> exact hk

end

theorem onEvent_answers (s : Session rl) (c : Circumstance) (conn : Nat) (msg : Structured) :
    ∃ rs, (s.onEvent c conn msg).out = s.out ++ rs ∧ Answers s c msg (str "EVENT") rs := by
  have hverify {id : Str} {ev : Event} {s s' : Session rl}
      (h : publishVerified c.mem conn id ev s = .ok s') :
      ∃ accepted text, s'.out = s.out ++ [.ok id accepted text] := by
    unfold publishVerified at h
    split at h
    · cases h
      exact ⟨true, [], rfl⟩
    · cases h
  obtain ⟨id, accepted, text, names, hout⟩ :=
    onEventGeneric_out hverify s c conn (msg.item 1) false
  exact ⟨_, hout, .event id text accepted names⟩

theorem onFile_answers (s : Session rl) (c : Circumstance) (conn : Nat) (msg : Structured) :
    ∃ rs, (s.onFile c conn msg).out = s.out ++ rs ∧ Answers s c msg (str "FILE") rs := by
  have hverify {id : Str} {ev : Event} {s s' : Session rl} (h : awaitFile id ev s = .ok s') :
      ∃ accepted text, s'.out = s.out ++ [.ok id accepted text] := by
    unfold awaitFile at h
    split at h <;> cases h <;> exact ⟨_, _, rfl⟩
  obtain ⟨id, accepted, text, names, hout⟩ :=
    onEventGeneric_out hverify s c conn (msg.item 1) true
  exact ⟨_, hout, .file id text accepted names⟩

theorem onReq_answers {s s' : Session rl} (h : s.onReq c msg = some s') :
    ∃ rs, s'.out = s.out ++ rs ∧ Answers s c msg (str "REQ") rs := by
  unfold onReq at h
  split at h
  · rename_i subid flts hid hflts
    have answers := Answers.req (s := s) (c := c) subid flts hid hflts
    have hsent := s.storedAnswer_streamed c.takes flts subid
    generalize streamed c.takes 0 (s.app.answering flts) = sent at answers hsent
    obtain ⟨evs, through⟩ := sent
    rw [hsent] at h
    cases through with
    | false =>
      cases h
      exact ⟨_, by simp, answers⟩
    | true =>
      cases h
      exact ⟨_, List.append_assoc _ _ _, answers⟩
  · cases h

theorem onCount_answers {s s' : Session rl} (h : s.onCount c msg = some s') :
    ∃ rs, s'.out = s.out ++ rs ∧ Answers s c msg (str "COUNT") rs := by
  unfold onCount at h
  split at h
  · rename_i subid flts hid hflts
    cases h
    exact ⟨_, rfl, .count subid flts hid hflts⟩
  · cases h

theorem onClose_answers {s s' : Session rl} (h : s.onClose msg = some s') :
    ∃ rs, s'.out = s.out ++ rs ∧ Answers s c msg (str "CLOSE") rs := by
  obtain ⟨id, hid, rfl⟩ := Option.map_eq_some_iff.mp h
  exact ⟨[], (List.append_nil _).symm, .close id hid⟩

theorem processAuth_answers {s s' : Session rl} (h : s.processAuth c (msg.item 1) = some s') :
    ∃ rs, s'.out = s.out ++ rs ∧ Answers s c msg (str "AUTH") rs := by
  obtain ⟨id, hid, rfl⟩ := Option.map_eq_some_iff.mp h
  split
  · exact ⟨_, rfl, .auth id _ _ hid⟩
  · exact ⟨_, rfl, .auth id _ _ hid⟩

theorem onRetrieve_answers {s s' : Session rl} (h : s.onRetrieve c msg = some s') :
    ∃ rs, s'.out = s.out ++ rs ∧ Answers s c msg (str "RETRIEVE") rs := by
  obtain ⟨id, hid, rfl⟩ := Option.map_eq_some_iff.mp h
  split
  · rename_i att hatt
    exact ⟨_, List.append_assoc _ _ _, .retrieved id att hid hatt⟩
  · rename_i hatt
    exact ⟨_, rfl, .missing id hid hatt⟩

/-- What was said before makes no difference to an answer. -/
theorem Answers.with_out {s : Session rl} {rs : List Reply}
    (h : Answers { s with out := o } c msg cmd rs) : Answers s c msg cmd rs := by
  cases h with
  | event id text accepted names => exact .event id text accepted names
  | file id text accepted names => exact .file id text accepted names
  | auth id text accepted names => exact .auth id text accepted names
  | req subid flts names asks => exact .req subid flts names asks
  | count subid flts names asks => exact .count subid flts names asks
  | close id names => exact .close id names
  | retrieved id att names there => exact .retrieved id att names there
  | missing id names gone => exact .missing id names gone
  | unconverted cmd known wrong => exact .unconverted cmd known wrong
  | unnamed wrong => exact .unnamed wrong
  | unknown cmd other => exact .unknown cmd other

/-- A handler's answer, or that of `processMessage` when a conversion failed. -/
theorem answers_getD {s : Session rl} {done : Option (Session rl)}
    (hdone : ∀ s', done = some s' → ∃ rs, s'.out = s.out ++ rs ∧ Answers s c msg cmd rs)
    (hnone : done = none →
      Answers s c msg cmd [.notice (str "error: Internal error - command ignored")]) :
    ∃ rs, (done.getD (s.sendNotice (str "error: Internal error - command ignored"))).out =
      s.out ++ rs ∧ Answers s c msg cmd rs := by
  cases hd : done with
  | none => exact ⟨_, rfl, hnone hd⟩
  | some s' => exact hdone s' hd

theorem processMessage_replies (s : Session rl) (c : Circumstance) (conn : Nat) (payload : Str) :
    ∃ rs, (s.processMessage c conn payload).out = s.out ++ rs ∧
      Replies s c (.text payload) rs := by
  have hsaid : (if payload.length > rl.options.maxMessageSize then
      s.sendNotice (str "Text message is too long") else s) =
      { s with out := s.out ++ complaint rl payload } := by
    unfold complaint
    split
    · rfl
    · simp
  unfold processMessage
  rw [hsaid]
  generalize hs₀ : ({ s with out := s.out ++ complaint rl payload } : Session rl) = s₀
  have hout : s₀.out = s.out ++ complaint rl payload := by rw [← hs₀]
  dsimp only
  cases hmsg : rl.ext.fromJson payload with
  | none =>
    refine ⟨_, ?_, .unread payload (fun msg h => nomatch hmsg.symm.trans h)⟩
    rw [← List.append_assoc, ← hout]
    rfl
  | some msg =>
  dsimp only
  cases hcmd : rl.ext.asStringView (msg.item 0) with
  | none =>
    refine ⟨_, ?_, .unread payload (fun msg' h => ?_)⟩
    · rw [← List.append_assoc, ← hout]
      rfl
    · cases hmsg.symm.trans h
      exact hcmd
  | some cmd =>
  -- an answer to the command is an answer to the message
  suffices h : ∃ rs, _ = s₀.out ++ rs ∧ Answers s₀ c msg cmd rs by
    obtain ⟨rs, hrs, answers⟩ := h
    refine ⟨complaint rl payload ++ rs, ?_, ?_⟩
    · rw [← List.append_assoc, ← hout]
      exact hrs
    · rw [← hs₀] at answers
      exact .command payload cmd msg rs hmsg hcmd answers.with_out
  have wrong {α : Type} {f : Str → α} (h : (rl.ext.asString (msg.item 1)).map f = none) :
      rl.ext.asString (msg.item 1) = none ∨ requestFilters rl.ext c.mem msg.items = none :=
    Or.inl (Option.map_eq_none_iff.mp h)
  dsimp only
  split
  · rename_i h
    rw [h]
    exact s₀.onEvent_answers c conn msg
  split
  · rename_i h
    rw [h]
    exact answers_getD (fun s' => onReq_answers)
      (fun h => .unconverted _ (by simp) ((s₀.onReq_none c msg).mp h))
  split
  · rename_i h
    rw [h]
    exact answers_getD (fun s' => onCount_answers)
      (fun h => .unconverted _ (by simp) ((s₀.onCount_none c msg).mp h))
  split
  · rename_i h
    rw [h]
    exact answers_getD (fun s' => onClose_answers) (fun h => .unconverted _ (by simp) (wrong h))
  split
  · rename_i h
    rw [h]
    exact answers_getD (fun s' => processAuth_answers)
      (fun h => .unnamed (Option.map_eq_none_iff.mp h))
  split
  · rename_i h
    rw [h]
    exact s₀.onFile_answers c conn msg
  split
  · rename_i h
    rw [h]
    exact answers_getD (fun s' => onRetrieve_answers) (fun h => .unconverted _ (by simp) (wrong h))
  · exact ⟨_, rfl, .unknown cmd (by simp [*])⟩

theorem processBinaryMessage_replies (s : Session rl) (c : Circumstance) (data : Str) :
    ∃ rs, (s.processBinaryMessage c.mem data).1.out = s.out ++ rs ∧
      Replies s c (.binary data) rs := by
  unfold processBinaryMessage
  split
  · rename_i hpending
    exact ⟨_, rfl, .stray data hpending⟩
  · rename_i ev hpending
    dsimp only
    split
    · exact ⟨_, rfl, .upload data ev _ _ hpending⟩
    split
    · exact ⟨_, rfl, .upload data ev _ _ hpending⟩
    split
    · exact ⟨_, rfl, .upload data ev _ _ hpending⟩
    · exact ⟨_, rfl, .upload data ev _ _ hpending⟩

/-- Every frame is answered once. -/
theorem handle_replies (s : Session rl) (conn : Nat) (f : Frame) (c : Circumstance) :
    ∃ rs, (s.handle conn f c).1.out = s.out ++ rs ∧ Replies s c f rs := by
  cases f with
  | text payload => exact s.processMessage_replies c conn payload
  | binary data => exact s.processBinaryMessage_replies c data
  | connClose => exact ⟨[], (List.append_nil _).symm, .closed⟩
  | largeFrame => exact ⟨_, rfl, .large⟩
  | other => exact ⟨[], (List.append_nil _).symm, .other⟩

end Session

namespace Server

def told (sv : Server rl) (conn : Nat) : List Reply :=
  (sv.sent.filter (fun r => r.1 == conn)).map Prod.snd

/-- The inputs that a connection brings in: its arrival, and its messages once it is there. -/
def takes (conn : Nat) (sv : Server rl) : Input → Bool
  | .connect i _ _ => i == conn && (sv.peers i).isNone
  | .frame i _ _ => i == conn && (sv.peers i).isSome
  | .gc _ => false

/-- How a connection is answered in one turn. -/
inductive Replies (conn : Nat) : Server rl × Input → List Reply → Prop where
  | greeted (sv : Server rl) (pubkey : Pubkey) (nonce : Str) :
      Replies conn (sv, .connect conn pubkey nonce) [.auth nonce]
  | answered (sv : Server rl) (f : Frame) (c : Circumstance) (p : Peer) (replies : List Reply)
      (there : sv.peers conn = some p) (answers : Session.Replies (sv.session p) c f replies) :
      Replies conn (sv, .frame conn f c) replies

theorem told_append {sv sv' : Server rl} {more : List (Nat × Reply)}
    (h : sv'.sent = sv.sent ++ more) (conn : Nat) :
    sv'.told conn = sv.told conn ++ (more.filter (fun r => r.1 == conn)).map Prod.snd := by
  simp [told, h]

theorem step_told (sv : Server rl) (conn : Nat) (x : Input) (h : takes conn sv x = true) :
    ∃ replies, (sv.step x).told conn = sv.told conn ++ replies ∧
      Replies conn (sv, x) replies := by
  cases x with
  | connect i pubkey nonce =>
    simp only [takes, Bool.and_eq_true, beq_iff_eq, Option.isNone_iff_eq_none] at h
    obtain ⟨rfl, hnew⟩ := h
    have hsent : (sv.step (.connect i pubkey nonce)).sent = sv.sent ++ [(i, .auth nonce)] := by
      simp [step, hnew]
    exact ⟨_, (told_append hsent i).trans (by simp), .greeted sv pubkey nonce⟩
  | frame i f c =>
    simp only [takes, Bool.and_eq_true, beq_iff_eq, Option.isSome_iff_exists] at h
    obtain ⟨rfl, p, hp⟩ := h
    obtain ⟨rs, hout, replies⟩ := (sv.session p).handle_replies i f c
    have hsent := sv.step_sent hp f c
    rw [hout] at hsent
    refine ⟨rs, (told_append hsent i).trans ?_, .answered sv f c p rs hp replies⟩
    simp [session, List.filter_map, Function.comp_def]
  | gc mem => cases h

/-- Nothing is said to a connection but in its turns. -/
theorem step_silent (sv : Server rl) (conn : Nat) (x : Input) (h : takes conn sv x = false) :
    (sv.step x).told conn = sv.told conn := by
  cases x with
  | connect i pubkey nonce =>
    cases hp : sv.peers i with
    | some p => simp [step, hp]
    | none =>
      have hne : i ≠ conn := by simpa [takes, hp] using h
      have hsent : (sv.step (.connect i pubkey nonce)).sent = sv.sent ++ [(i, .auth nonce)] := by
        simp [step, hp]
      rw [told_append hsent conn]
      simp [hne]
  | frame i f c =>
    cases hp : sv.peers i with
    | none => simp [step, hp]
    | some p =>
      have hne : i ≠ conn := by simpa [takes, hp] using h
      rw [told_append (sv.step_sent hp f c) conn]
      simp [hne, List.filter_map, Function.comp_def]
  | gc mem => rfl

end Server

end NostrServer
