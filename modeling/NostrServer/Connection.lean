import NostrServer.Effects
import NostrServer.Lib.KeyedList

namespace NostrServer
open Docdb

variable {rl : Relay}

/-- What a text message asks of the subscriptions: a REQ whose filters convert, or a CLOSE. -/
def Frame.asks (rl : Relay) (mem : Memory) : Frame → Option (KeyOp Str (List Filter))
  | .text payload =>
    match rl.ext.fromJson payload with
    | none => none
    | some msg =>
      match rl.ext.asStringView (msg.item 0), rl.ext.asString (msg.item 1) with
      | some cmd, some subid =>
        if cmd = str "REQ" then (Session.requestFilters rl.ext mem msg.items).map (.opens subid)
        else if cmd = str "CLOSE" then some (.closes subid)
        else none
      | _, _ => none
  | _ => none

namespace Session

structure Steady (s s' : Session rl) : Prop where
  authent : s'.peer.authent = s.peer.authent
  authPubkey : s'.peer.authPubkey = s.peer.authPubkey
  authNonce : s'.peer.authNonce = s.peer.authNonce
  subscriptions : s'.peer.subscriptions = s.peer.subscriptions

theorem Steady.trans {s s₁ s₂ : Session rl} (h : Steady s s₁) (h' : Steady s₁ s₂) : Steady s s₂ :=
  ⟨h'.authent.trans h.authent, h'.authPubkey.trans h.authPubkey, h'.authNonce.trans h.authNonce,
    h'.subscriptions.trans h.subscriptions⟩

theorem Steady.of_peer {s s' : Session rl} (h : s'.peer = s.peer) : Steady s s' :=
  ⟨by rw [h], by rw [h], by rw [h], by rw [h]⟩

theorem limited_steady (s : Session rl) (now : Int) : Steady s (s.limited now).2 := by
  unfold limited
  split <;> exact ⟨rfl, rfl, rfl, rfl⟩

theorem whitelistCheck_steady (s : Session rl) (mem : Memory) (ev : Event) :
    Steady s (s.whitelistCheck mem ev).1 := by
  unfold whitelistCheck
  dsimp only
  repeat' split
  all_goals exact .of_peer rfl

theorem eventDeletion_steady {s s' : Session rl} (h : s.eventDeletion mem self ev = .ok s') :
    Steady s s' := by
  unfold eventDeletion at h
  dsimp only at h
  split at h
  · cases h
  split at h
  · cases h
  · cases h
    exact .of_peer rfl

theorem onEventGeneric_steady (s : Session rl) (c : Circumstance) (self : Nat) (m : Structured)
    (onVerify : Str → Event → Session rl → Except Exn (Session rl)) (noSpecialEvents : Bool)
    (hverify : ∀ id ev s s', onVerify id ev s = .ok s' → Steady s s') :
    Steady s (s.onEventGeneric c self m onVerify noSpecialEvents) := by
  have exits : Exits (Steady s) (Steady s) c self onVerify := {
    limited := fun s₁ h => h.trans (s₁.limited_steady c.now)
    checked := fun s₁ ev h => h.trans (s₁.whitelistCheck_steady c.mem ev)
    published := fun _ _ h => h.trans (.of_peer rfl)
    sent := fun _ _ _ _ h => h.trans (.of_peer rfl)
    deleted := fun _ _ _ h hdone => h.trans (eventDeletion_steady hdone)
    handled := fun _ _ _ _ h hdone => h.trans (hverify _ _ _ _ hdone) }
  exact exits.onEventGeneric (.of_peer rfl) m noSpecialEvents

theorem onEvent_steady (s : Session rl) (c : Circumstance) (self : Nat) (msg : Structured) :
    Steady s (s.onEvent c self msg) := by
  apply s.onEventGeneric_steady c self _ _ false
  intro id ev s s' h
  unfold publishVerified at h
  split at h
  · cases h
    exact .of_peer rfl
  · cases h

theorem onFile_steady (s : Session rl) (c : Circumstance) (self : Nat) (msg : Structured) :
    Steady s (s.onFile c self msg) := by
  apply s.onEventGeneric_steady c self _ _ true
  intro id ev s s' h
  unfold awaitFile at h
  split at h <;> cases h <;> exact ⟨rfl, rfl, rfl, rfl⟩

theorem processBinaryMessage_steady (s : Session rl) (mem : Memory) (data : Str) :
    Steady s (s.processBinaryMessage mem data).1 := by
  unfold processBinaryMessage
  dsimp only
  repeat' split
  all_goals exact ⟨rfl, rfl, rfl, rfl⟩

theorem asks_req (h : Commands rl f (str "REQ") msg) (mem : Memory) : f.asks rl mem =
    (rl.ext.asString (msg.item 1)).bind
      (fun subid => (requestFilters rl.ext mem msg.items).map (.opens subid)) := by
  obtain ⟨payload, rfl, hmsg, hcmd⟩ := h
  cases hid : rl.ext.asString (msg.item 1) <;> simp [Frame.asks, hmsg, hcmd, hid]

theorem asks_close (h : Commands rl f (str "CLOSE") msg) (mem : Memory) :
    f.asks rl mem = (rl.ext.asString (msg.item 1)).map .closes := by
  obtain ⟨payload, rfl, hmsg, hcmd⟩ := h
  have hne : str "CLOSE" ≠ str "REQ" := by decide
  cases hid : rl.ext.asString (msg.item 1) <;> simp [Frame.asks, hmsg, hcmd, hid, hne]

/-- Other messages ask for nothing. -/
theorem asks_none (hreq : ∀ msg, ¬ Commands rl f (str "REQ") msg)
    (hclose : ∀ msg, ¬ Commands rl f (str "CLOSE") msg) (mem : Memory) : f.asks rl mem = none := by
  cases f with
  | text payload =>
    cases hmsg : rl.ext.fromJson payload with
    | none => simp [Frame.asks, hmsg]
    | some msg =>
      cases hcmd : rl.ext.asStringView (msg.item 0) with
      | none => simp [Frame.asks, hmsg, hcmd]
      | some cmd =>
        have hr : cmd ≠ str "REQ" := fun he => hreq msg ⟨payload, rfl, hmsg, he ▸ hcmd⟩
        have hc : cmd ≠ str "CLOSE" := fun he => hclose msg ⟨payload, rfl, hmsg, he ▸ hcmd⟩
        cases hid : rl.ext.asString (msg.item 1) <;> simp [Frame.asks, hmsg, hcmd, hid, hr, hc]
  | _ => rfl

/-- How REQ and CLOSE are handled. -/
theorem processMessage_req (s : Session rl) (c : Circumstance) (conn : Nat)
    (h : Commands rl (.text payload) (str "REQ") msg) :
    ∃ o, s.processMessage c conn payload = ({ s with out := o }.onReq c msg).getD
      ({ s with out := o }.sendNotice (str "error: Internal error - command ignored")) := by
  obtain ⟨_, hf, hmsg, hcmd⟩ := h
  cases hf
  have hne : str "REQ" ≠ str "EVENT" := by decide
  by_cases hlong : payload.length > rl.options.maxMessageSize
  · exact ⟨s.out ++ [.notice (str "Text message is too long")],
      by simp [processMessage, hlong, hmsg, hcmd, hne, sendNotice, send]⟩
  · exact ⟨s.out, by simp [processMessage, hlong, hmsg, hcmd, hne]⟩

theorem processMessage_close (s : Session rl) (c : Circumstance) (conn : Nat)
    (h : Commands rl (.text payload) (str "CLOSE") msg) : ∃ o, s.processMessage c conn payload =
      ({ s with out := o }.onClose msg).getD
        ({ s with out := o }.sendNotice (str "error: Internal error - command ignored")) := by
  obtain ⟨_, hf, hmsg, hcmd⟩ := h
  cases hf
  have hevent : str "CLOSE" ≠ str "EVENT" := by decide
  have hreq : str "CLOSE" ≠ str "REQ" := by decide
  have hcount : str "CLOSE" ≠ str "COUNT" := by decide
  by_cases hlong : payload.length > rl.options.maxMessageSize
  · exact ⟨s.out ++ [.notice (str "Text message is too long")],
      by simp [processMessage, hlong, hmsg, hcmd, hevent, hreq, hcount, sendNotice, send]⟩
  · exact ⟨s.out, by simp [processMessage, hlong, hmsg, hcmd, hevent, hreq, hcount]⟩

def subscribed (s : Session rl) (c : Circumstance) :
    Option (KeyOp Str (List Filter)) → List (Str × List Filter)
  | none => s.peer.subscriptions
  | some (.opens subid flts) =>
    if (s.storedAnswer c.takes flts subid).2 then s.peer.subscriptions ++ [(subid, flts)]
      else s.peer.subscriptions
  | some (.closes subid) => s.peer.subscriptions.filter (fun sb => sb.1 ≠ subid)

theorem onReq_subscriptions (s : Session rl) (c : Circumstance) (msg : Structured) (o : List Reply)
    (s₀ : Session rl) (h₀ : s₀.peer = s.peer) :
    (({ s with out := o }.onReq c msg).getD s₀).peer.subscriptions =
      s.subscribed c ((rl.ext.asString (msg.item 1)).bind
        (fun subid => (requestFilters rl.ext c.mem msg.items).map (.opens subid))) := by
  unfold onReq
  split
  · rename_i subid flts hid hflts
    simp only [hid, hflts, Option.bind_some, Option.map_some, subscribed]
    have hsame : ({ s with out := o } : Session rl).storedAnswer c.takes flts subid =
      s.storedAnswer c.takes flts subid := rfl
    rw [hsame]
    generalize s.storedAnswer c.takes flts subid = answered
    obtain ⟨sent, through⟩ := answered
    cases through <;> rfl
  · rename_i hno
    have hnone : (rl.ext.asString (msg.item 1)).bind
        (fun subid => (requestFilters rl.ext c.mem msg.items).map (KeyOp.opens subid)) = none := by
      cases hid : rl.ext.asString (msg.item 1) with
      | none => rfl
      | some subid =>
        cases hflts : requestFilters rl.ext c.mem msg.items with
        | none => rfl
        | some flts => exact (hno subid flts hid hflts).elim
    rw [hnone]
    exact congrArg Peer.subscriptions h₀

theorem processMessage_subscriptions (s : Session rl) (c : Circumstance) (conn : Nat)
    (payload : Str) :
    (s.processMessage c conn payload).peer.subscriptions =
      s.subscribed c ((Frame.text payload).asks rl c.mem) := by
  by_cases hreq : ∃ msg, Commands rl (.text payload) (str "REQ") msg
  · obtain ⟨msg, named⟩ := hreq
    obtain ⟨o, ho⟩ := s.processMessage_req c conn named
    rw [ho, asks_req named]
    exact s.onReq_subscriptions c msg _ _ rfl
  by_cases hclose : ∃ msg, Commands rl (.text payload) (str "CLOSE") msg
  · obtain ⟨msg, named⟩ := hclose
    obtain ⟨o, ho⟩ := s.processMessage_close c conn named
    rw [ho, asks_close named]
    cases hid : rl.ext.asString (msg.item 1) <;> simp [onClose, hid, subscribed, sendNotice, send]
  have hreq' := not_exists.mp hreq
  have hclose' := not_exists.mp hclose
  rw [asks_none hreq' hclose']
  have h := s.processMessage_dispatched c conn payload
  generalize s.processMessage c conn payload = s' at h ⊢
  cases h with
  | event msg o notices named =>
    exact (onEvent_steady { s with out := s.out ++ o } c conn msg).subscriptions
  | file msg o notices named =>
    exact (onFile_steady { s with out := s.out ++ o } c conn msg).subscriptions
  | req msg o notices named done => exact absurd named (hreq' msg)
  | close msg o notices named done => exact absurd named (hclose' msg)
  | auth msg o notices named done =>
    obtain ⟨id, _, rfl⟩ := Option.map_eq_some_iff.mp done
    split <;> rfl
  | other app peer => exact congrArg Peer.subscriptions peer

/-- Every message leaves the subscriptions as its request asks. -/
theorem handle_subscriptions (s : Session rl) (conn : Nat) (f : Frame) (c : Circumstance) :
    (s.handle conn f c).1.peer.subscriptions = s.subscribed c (f.asks rl c.mem) := by
  cases f with
  | text payload => exact s.processMessage_subscriptions c conn payload
  | binary payload => exact (s.processBinaryMessage_steady c.mem payload).subscriptions
  | connClose => rfl
  | largeFrame => rfl
  | other => rfl

end Session

/-- The peer of a connection after an input was there before, is new, or has handled the
message. -/
theorem Server.step_peers (sv : Server rl) (x : Input) (hq : (sv.step x).peers i = some q) :
    (sv.peers i = some q ∧ ∀ f c, x ≠ .frame i f c) ∨
    (∃ k nonce, x = .connect i k nonce ∧ sv.peers i = none ∧
      q = { authPubkey := k, authNonce := nonce }) ∨
    ∃ p f c, sv.peers i = some p ∧ x = .frame i f c ∧ q = ((sv.session p).handle i f c).1.peer := by
  cases x with
  | gc mem => exact Or.inl ⟨hq, fun f c => nofun⟩
  | connect conn k nonce =>
    dsimp only [step] at hq
    split at hq
    · exact Or.inl ⟨hq, fun f c => nofun⟩
    · rename_i hnone
      by_cases hi : i = conn
      · subst hi
        simp only [setPeer, ↓reduceIte, Option.some.injEq] at hq
        exact Or.inr (Or.inl ⟨k, nonce, rfl, by simpa using hnone, hq.symm⟩)
      · simp only [setPeer, hi, ↓reduceIte] at hq
        exact Or.inl ⟨hq, fun f c => nofun⟩
  | frame conn f c =>
    dsimp only [step] at hq
    by_cases hi : i = conn
    · subst hi
      split at hq
      · rename_i hnone
        cases hnone.symm.trans hq
      · rename_i p hp
        simp only [setPeer, ↓reduceIte] at hq
        split at hq
        · cases hq
          exact Or.inr (Or.inr ⟨p, f, c, hp, rfl, rfl⟩)
        · cases hq
    · refine Or.inl ⟨?_, fun f' c' he => hi (Input.frame.inj he).1.symm⟩
      split at hq
      · exact hq
      · simpa only [setPeer, hi, ↓reduceIte] using hq

end NostrServer
