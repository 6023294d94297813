import NostrServer.Connection
import NostrServer.ReferenceServer

namespace NostrServer
open Docdb

variable {rl : Relay}

namespace Session

/-- The message changed nothing, and was answered with notices at most. -/
structure OnlyNotices (s s' : Session rl) : Prop where
  app : s'.app.Same s.app
  peer : s'.peer = s.peer
  out : ∃ texts : List Str, s'.out = s.out ++ texts.map .notice

/-- Something was sent, and the last of it is no notice. -/
def Replied (s s' : Session rl) : Prop :=
  ∃ sent r, s'.out = s.out ++ sent ++ [r] ∧ ∀ text, r ≠ .notice text

/-- A text message that no handler gets to do anything with: its value does not parse or
names no command, or its command lacks what the handler converts first. A CLOSE gets
through and finds nothing to close. -/
def Ignores (s : Session rl) (c : Circumstance) (payload : Str) : Prop :=
  match rl.ext.fromJson payload with
  | none => True
  | some msg =>
    match rl.ext.asStringView (msg.item 0) with
    | none => True
    | some cmd =>
      if cmd = str "EVENT" then False
      else if cmd = str "REQ" ∨ cmd = str "COUNT" then
        rl.ext.asString (msg.item 1) = none ∨ requestFilters rl.ext c.mem msg.items = none
      else if cmd = str "CLOSE" then
        ∀ id, rl.ext.asString (msg.item 1) = some id → ∀ sb ∈ s.peer.subscriptions, sb.1 ≠ id
      else if cmd = str "AUTH" then rl.ext.asStringView ((msg.item 1).field (str "id")) = none
      else if cmd = str "FILE" then False
      else if cmd = str "RETRIEVE" then rl.ext.asString (msg.item 1) = none
      else True

/-- A CLOSE of an id that is not open. -/
def ClosesNothing (s : Session rl) (payload : Str) : Prop :=
  ∃ msg id, Commands rl (.text payload) (str "CLOSE") msg ∧ rl.ext.asString (msg.item 1) = some id ∧
    ∀ sb ∈ s.peer.subscriptions, sb.1 ≠ id

theorem OnlyNotices.refl (s : Session rl) : OnlyNotices s s := ⟨App.Same.rfl, rfl, [], by simp⟩

theorem OnlyNotices.sendNotice {s s' : Session rl} (h : OnlyNotices s s') (text : Str) :
    OnlyNotices s (s'.sendNotice text) := by
  obtain ⟨texts, ho⟩ := h.out
  exact ⟨h.app, h.peer, texts ++ [text], by simp [Session.sendNotice, send, ho]⟩

/-- A reply that is no notice shows, whatever was sent before it. -/
theorem Replied.not_onlyNotices {s s₀ s' : Session rl} (h : Replied s₀ s')
    (h₀ : s₀.out = s.out ++ o) :
    ¬ OnlyNotices s s' := by
  obtain ⟨sent, r, ho, hr⟩ := h
  intro honly
  obtain ⟨texts, ht⟩ := honly.out
  have hin : r ∈ texts.map Reply.notice := by
    have he : s.out ++ (o ++ sent ++ [r]) = s.out ++ texts.map Reply.notice := by
      rw [← ht, ho, h₀]; simp
    rw [← List.append_cancel_left he]
    simp
  obtain ⟨text, _, rfl⟩ := List.mem_map.mp hin
  exact hr text rfl

theorem replied_send {s s' : Session rl} (h : s'.out = s.out) (hr : ∀ text, r ≠ .notice text) :
    Replied s (s'.send r) :=
  ⟨[], r, by simp [send, h], hr⟩

theorem Replied.of_out {s₀ s s' : Session rl} (h : Replied s s') (h₀ : s.out = s₀.out) :
    Replied s₀ s' := by
  unfold Replied at h ⊢
  rwa [h₀] at h

theorem eventDeletion_replied {s s' : Session rl} (h : s.eventDeletion mem self ev = .ok s') :
    Replied s s' := by
  unfold eventDeletion at h
  dsimp only at h
  split at h
  · cases h
  split at h
  · cases h
  · cases h
    exact replied_send rfl nofun

/-- An event is always answered. -/
theorem onEventGeneric_replied (s : Session rl) (c : Circumstance) (self : Nat) (m : Structured)
    (onVerify : Str → Event → Session rl → Except Exn (Session rl)) (noSpecialEvents : Bool)
    (hverify : ∀ id ev s s', onVerify id ev s = .ok s' → Replied s s') :
    Replied s (s.onEventGeneric c self m onVerify noSpecialEvents) := by
  have exits : Exits (fun s₁ => s₁.out = s.out) (Replied s) c self onVerify := {
    limited := fun s₁ h => (s₁.limited_quiet c.now).2.2.1.trans h
    checked := fun s₁ ev h => (s₁.whitelistCheck_spec c.mem ev).2.1.trans h
    published := fun _ _ h => h
    sent := fun _ _ _ _ h => replied_send h nofun
    deleted := fun _ _ _ h hdone => (eventDeletion_replied hdone).of_out h
    handled := fun _ _ _ _ h hdone => (hverify _ _ _ _ hdone).of_out h }
  exact exits.onEventGeneric rfl m noSpecialEvents

theorem onEvent_replied (s : Session rl) (c : Circumstance) (self : Nat) (msg : Structured) :
    Replied s (s.onEvent c self msg) := by
  apply s.onEventGeneric_replied c self _ _ false
  intro id ev s s' h
  unfold publishVerified at h
  split at h
  · cases h
    exact replied_send rfl nofun
  · cases h

theorem onFile_replied (s : Session rl) (c : Circumstance) (self : Nat) (msg : Structured) :
    Replied s (s.onFile c self msg) := by
  apply s.onEventGeneric_replied c self _ _ true
  intro id ev s s' h
  unfold awaitFile at h
  split at h <;> cases h <;> exact replied_send rfl nofun

/-- An answer that is cut short ends with the event that was not taken. -/
theorem answer_cut {a : App rl}
    (h : answer rl a takes flts subid n limit candidates = (sent, false)) :
    ∃ before ev karma, sent = before ++ [.event subid ev karma] := by
  induction candidates generalizing n limit sent with
  | nil => cases h
  | cons cd candidates ih =>
    unfold answer at h
    split at h
    · cases h
    split at h
    · split at h
      · split at h
        · generalize hrest : answer rl a takes flts subid (n + 1) (limit.map (· - 1)) candidates =
            rest at h
          obtain ⟨later, through⟩ := rest
          cases h
          obtain ⟨before, ev, karma, rfl⟩ := ih hrest
          exact ⟨_ :: before, ev, karma, rfl⟩
        · cases h
          exact ⟨[], _, _, rfl⟩
      · exact ih h
    · exact ih h

theorem onReq_replied {s s' : Session rl} (h : s.onReq c msg = some s') : Replied s s' := by
  unfold onReq at h
  split at h
  · split at h
    · rename_i sent hcut
      cases h
      unfold storedAnswer at hcut
      dsimp only at hcut
      split at hcut
      · cases hcut
      · obtain ⟨before, ev, karma, rfl⟩ := answer_cut hcut
        exact ⟨before, _, (List.append_assoc _ _ _).symm, nofun⟩
    · cases h
      exact ⟨_, _, rfl, nofun⟩
  · cases h

/-- A handler of filters under an id does nothing exactly when it gets no id or no filters. -/
theorem request_none (c : Circumstance) (msg : Structured)
    {handle : Str → List Filter → Option (Session rl)} (h : ∀ id flts, handle id flts ≠ none) :
    (match rl.ext.asString (msg.item 1), requestFilters rl.ext c.mem msg.items with
      | some id, some flts => handle id flts
      | _, _ => none) = none ↔
    rl.ext.asString (msg.item 1) = none ∨ requestFilters rl.ext c.mem msg.items = none := by
  cases rl.ext.asString (msg.item 1) <;> cases requestFilters rl.ext c.mem msg.items <;> simp [h]

theorem onReq_none (s : Session rl) (c : Circumstance) (msg : Structured) : s.onReq c msg = none ↔
    rl.ext.asString (msg.item 1) = none ∨ requestFilters rl.ext c.mem msg.items = none :=
  request_none c msg (fun _ _ => by split <;> exact Option.some_ne_none _)

theorem onCount_none (s : Session rl) (c : Circumstance) (msg : Structured) :
    s.onCount c msg = none ↔
    rl.ext.asString (msg.item 1) = none ∨ requestFilters rl.ext c.mem msg.items = none :=
  request_none c msg (fun _ _ => Option.some_ne_none _)

theorem onCount_replied {s s' : Session rl} (h : s.onCount c msg = some s') : Replied s s' := by
  unfold onCount at h
  split at h
  · cases h
    exact replied_send rfl nofun
  · cases h

theorem processAuth_replied {s s' : Session rl} (h : s.processAuth c m = some s') :
    Replied s s' := by
  obtain ⟨id, _, rfl⟩ := Option.map_eq_some_iff.mp h
  split
  · exact replied_send rfl nofun
  · exact replied_send rfl nofun

theorem onRetrieve_replied {s s' : Session rl} (h : s.onRetrieve c msg = some s') :
    Replied s s' := by
  obtain ⟨id, _, rfl⟩ := Option.map_eq_some_iff.mp h
  split
  · exact ⟨_, _, rfl, nofun⟩
  · exact replied_send rfl nofun

/-- What can become of a message that is too long, complained about already. -/
inductive Complained (s : Session rl) (c : Circumstance) (payload : Str) : Session rl → Prop where
  | noticed (text : Str) (ignored : s.Ignores c payload) (named : ¬ s.ClosesNothing payload) :
      Complained s c payload ((s.sendNotice (str "Text message is too long")).sendNotice text)
  | closed (ignored : s.Ignores c payload) (named : s.ClosesNothing payload) :
      Complained s c payload (s.sendNotice (str "Text message is too long"))
  | handled {s' : Session rl} (ignored : ¬ s.Ignores c payload) (named : ¬ s.ClosesNothing payload)
      (effect : ¬ OnlyNotices s s') : Complained s c payload s'

/-- A handler that replies whenever what it needs converts. -/
theorem Complained.of_handler {s : Session rl} {done : Option (Session rl)} {text : Str}
    (hignored : s.Ignores c payload ↔ done = none) (hnamed : ¬ s.ClosesNothing payload)
    (hreplied : ∀ s', done = some s' → Replied (s.sendNotice (str "Text message is too long")) s') :
    Complained s c payload (done.getD
      ((s.sendNotice (str "Text message is too long")).sendNotice text)) := by
  cases hdone : done with
  | none => exact .noticed text (hignored.mpr hdone) hnamed
  | some s' =>
    refine .handled (fun hi => ?_) hnamed ((hreplied s' hdone).not_onlyNotices rfl)
    cases hdone.symm.trans (hignored.mp hi)

theorem onClose_nothing {s : Session rl} {id : Str} (hid : rl.ext.asString (msg.item 1) = some id)
    (hopen : ∀ sb ∈ s.peer.subscriptions, sb.1 ≠ id) : s.onClose msg = some s := by
  have hsame : s.peer.subscriptions.filter (fun sb => sb.1 ≠ id) = s.peer.subscriptions :=
    List.filter_eq_self.mpr (fun sb hsb => decide_eq_true (hopen sb hsb))
  unfold onClose
  rw [hid, Option.map_some, hsame]

/-- A CLOSE closes what is open under its id. -/
theorem Complained.of_close {s : Session rl} {msg : Structured} {text : Str}
    (hignored : s.Ignores c payload ↔ ∀ id, rl.ext.asString (msg.item 1) = some id →
      ∀ sb ∈ s.peer.subscriptions, sb.1 ≠ id)
    (hnamed : s.ClosesNothing payload ↔ ∃ id, rl.ext.asString (msg.item 1) = some id ∧
      ∀ sb ∈ s.peer.subscriptions, sb.1 ≠ id) :
    Complained s c payload (((s.sendNotice (str "Text message is too long")).onClose msg).getD
      ((s.sendNotice (str "Text message is too long")).sendNotice text)) := by
  cases hid : rl.ext.asString (msg.item 1) with
  | none =>
    have hnone : (s.sendNotice (str "Text message is too long")).onClose msg = none := by
      simp [onClose, hid]
    rw [hnone]
    exact .noticed text (hignored.mpr (by simp [hid]))
      (fun hn => by simp [hid] at hnamed; exact hnamed hn)
  | some id =>
    by_cases hopen : ∀ sb ∈ s.peer.subscriptions, sb.1 ≠ id
    · have hignores : s.Ignores c payload := hignored.mpr (fun id' hid' => by
        cases hid.symm.trans hid'
        exact hopen)
      rw [onClose_nothing (s := s.sendNotice _) hid hopen, Option.getD_some]
      exact .closed hignores (hnamed.mpr ⟨id, hid, hopen⟩)
    · refine .handled (fun hi => hopen (hignored.mp hi id hid)) (fun hn => ?_)
        (fun honly => hopen (fun sb hsb he => ?_))
      · obtain ⟨id', hid', hopen'⟩ := hnamed.mp hn
        cases hid.symm.trans hid'
        exact hopen hopen'
      · have hpeer := congrArg Peer.subscriptions honly.peer
        unfold onClose at hpeer
        rw [hid, Option.map_some, Option.getD_some] at hpeer
        exact of_decide_eq_true (List.filter_eq_self.mp hpeer sb hsb) he

theorem closesNothing_iff (s : Session rl) (hmsg : rl.ext.fromJson payload = some msg) :
    s.ClosesNothing payload ↔ rl.ext.asStringView (msg.item 0) = some (str "CLOSE") ∧
      ∃ id, rl.ext.asString (msg.item 1) = some id ∧ ∀ sb ∈ s.peer.subscriptions, sb.1 ≠ id := by
  constructor
  · intro ⟨msg', id, ⟨_, hf, hmsg', hcmd⟩, hid, hopen⟩
    cases hf
    cases hmsg.symm.trans hmsg'
    exact ⟨hcmd, id, hid, hopen⟩
  · intro ⟨hcmd, id, hid, hopen⟩
    exact ⟨msg, id, ⟨payload, rfl, hmsg, hcmd⟩, hid, hopen⟩

theorem processMessage_long (s : Session rl) (c : Circumstance) (conn : Nat) (payload : Str)
    (hlong : payload.length > rl.options.maxMessageSize) :
    Complained s c payload (s.processMessage c conn payload) := by
  cases hmsg : rl.ext.fromJson payload with
  | none =>
    have hnamed : ¬ s.ClosesNothing payload := by
      intro ⟨msg, id, ⟨_, hf, hmsg', _⟩, _⟩
      cases hf
      cases hmsg.symm.trans hmsg'
    have hignores : s.Ignores c payload := by simp [Ignores, hmsg]
    simp only [processMessage, hlong, hmsg, ↓reduceIte, Option.getD_none]
    exact .noticed _ hignores hnamed
  | some msg =>
  have hnamed := s.closesNothing_iff hmsg
  cases hcmd : rl.ext.asStringView (msg.item 0) with
  | none =>
    have hignores : s.Ignores c payload := by simp [Ignores, hmsg, hcmd]
    simp only [hcmd, reduceCtorEq, false_and, iff_false] at hnamed
    simp only [processMessage, hlong, hmsg, hcmd, ↓reduceIte, Option.getD_none]
    exact .noticed _ hignores hnamed
  | some cmd =>
  simp only [hcmd, Option.some.injEq] at hnamed
  have hclose (hne : cmd ≠ str "CLOSE") : ¬ s.ClosesNothing payload :=
    fun hn => hne (hnamed.mp hn).1
  have hignores : s.Ignores c payload = s.Ignores c payload := rfl
  conv_rhs at hignores => simp only [Ignores, hmsg, hcmd]
  simp only [processMessage, hlong, hmsg, hcmd, ↓reduceIte]
  by_cases hevent : cmd = str "EVENT"
  · simp only [hevent, ↓reduceIte] at hignores ⊢
    exact .handled (hignores ▸ not_false) (hclose (by rw [hevent]; decide))
      ((onEvent_replied _ c conn msg).not_onlyNotices rfl)
  by_cases hreq : cmd = str "REQ"
  · simp only [hreq, true_or, ↓reduceIte, eq_iff_iff] at hignores ⊢
    exact .of_handler (hignores.trans (onReq_none _ c msg).symm) (hclose (by rw [hreq]; decide))
      (fun s' hdone => onReq_replied hdone)
  by_cases hcount : cmd = str "COUNT"
  · simp only [hcount, or_true, ↓reduceIte, eq_iff_iff] at hignores ⊢
    exact .of_handler (hignores.trans (onCount_none _ c msg).symm) (hclose (by rw [hcount]; decide))
      (fun s' hdone => onCount_replied hdone)
  by_cases hclosing : cmd = str "CLOSE"
  · simp only [hclosing, true_and, ↓reduceIte, eq_iff_iff] at hignores hnamed ⊢
    exact .of_close hignores hnamed
  have hnamed := hclose hclosing
  by_cases hauth : cmd = str "AUTH"
  · simp only [hauth, ↓reduceIte, eq_iff_iff] at hignores ⊢
    refine .of_handler (hignores.trans ?_) hnamed (fun s' hdone => processAuth_replied hdone)
    exact Option.map_eq_none_iff.symm
  by_cases hfile : cmd = str "FILE"
  · simp only [hfile, ↓reduceIte] at hignores ⊢
    exact .handled (hignores ▸ not_false) hnamed ((onFile_replied _ c conn msg).not_onlyNotices rfl)
  by_cases hretrieve : cmd = str "RETRIEVE"
  · simp only [hretrieve, ↓reduceIte, eq_iff_iff] at hignores ⊢
    refine .of_handler (hignores.trans ?_) hnamed (fun s' hdone => onRetrieve_replied hdone)
    exact Option.map_eq_none_iff.symm
  · simp only [hevent, hreq, hcount, hclosing, hauth, hfile, hretrieve,
      or_self, ↓reduceIte] at hignores ⊢
    exact .noticed _ (hignores ▸ trivial) hnamed

def longMessage (cmd : String) : Structured :=
  .array [.string (str cmd), .string (List.replicate 65536 113)]

theorem jsonString_replicate (n : Nat) : (jsonString (List.replicate n 113)).length = n + 2 := by
  simp [jsonString, List.length_flatMap, jsonChar]

theorem longMessage_length (cmd : String) : 65536 < (jsonText (longMessage cmd)).length := by
  simp only [longMessage, jsonText, jsonItems, List.length_append, jsonString_replicate,
    List.length_cons, List.length_nil]
  omega

def longRelay (cmd : String) : Relay := plainRelay (tabled [] [] [longMessage cmd]) {}

def longSession (cmd : String) : Session (longRelay cmd) :=
  (Server.start (longRelay cmd)).session newPeer

def plainCircumstance : Circumstance := { mem := Memory.zeros, now := 0 }

theorem longMessage_commands (cmd : String) :
    Commands (longRelay cmd) (.text (jsonText (longMessage cmd))) (str cmd) (longMessage cmd) :=
  ⟨_, rfl, by simp [longRelay, plainRelay, plainEngine, tabled, Relay.ext], rfl⟩

end Session

end NostrServer
