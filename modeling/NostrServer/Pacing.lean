import NostrServer.Admission
import NostrServer.RateLimiter
import NostrServer.Removal
import NostrServer.Replies
import NostrServer.Subscriptions

namespace NostrServer
open Docdb SlidingWindow

variable {rl : Relay}

namespace Session

/-- The message got an event in: it went out to the subscribers, or its file is waited for. -/
def Posts (s s' : Session rl) : Prop :=
  s'.app.published ≠ s.app.published ∨ s'.peer.fileEvent ≠ s.peer.fileEvent

instance (s s' : Session rl) : Decidable (s.Posts s') := inferInstanceAs (Decidable (_ ∨ _))

/-- The limiter was not asked, and nothing got in; or it was, and let in what got in. -/
def Paced (s : Session rl) (now : Int) (s' : Session rl) : Prop :=
  (s'.peer.rateQueue = s.peer.rateQueue ∧ ¬ s.Posts s') ∨
  (s'.peer.rateQueue = (testAndAdd rl.options.eventRateWindow rl.options.eventRateLimit
      s.peer.rateQueue now).2 ∧
    (s.Posts s' → (testAndAdd rl.options.eventRateWindow rl.options.eventRateLimit
      s.peer.rateQueue now).1 = true))

theorem not_posts {s s' : Session rl} (happ : s'.app.published = s.app.published)
    (hfile : s'.peer.fileEvent = s.peer.fileEvent) : ¬ s.Posts s' := by
  rintro (h | h)
  · exact h happ
  · exact h hfile

theorem Paced.idle {s s' : Session rl} (happ : s'.app = s.app)
    (hqueue : s'.peer.rateQueue = s.peer.rateQueue)
    (hfile : s'.peer.fileEvent = s.peer.fileEvent) (now : Int) : s.Paced now s' :=
  Or.inl ⟨hqueue, not_posts (by rw [happ]) hfile⟩

theorem caught_peer (s : Session rl) (id : Str) (e : Exn) :
    (s.caught id e).peer = s.peer ∧ (s.caught id e).app = s.app := by
  cases e <;> exact ⟨rfl, rfl⟩

theorem whitelistCheck_peer (s : Session rl) (mem : Memory) (ev : Event) :
    (s.whitelistCheck mem ev).1.peer = s.peer := by
  unfold whitelistCheck
  split
  · dsimp only
    split
    · rfl
    · split
      · split <;> rfl
      · rfl
  · rfl

theorem eventDeletion_peer {s s' : Session rl} (h : s.eventDeletion mem self ev = .ok s') :
    s'.peer = s.peer := by
  unfold eventDeletion at h
  dsimp only at h
  split at h
  · cases h
  split at h
  · cases h
  · cases h
    rfl

section
variable {onVerify : Str → Event → Session rl → Except Exn (Session rl)}

/-- Nothing after the limiter's turn touches its queue. -/
theorem verified_rateQueue (hverify : ∀ {id ev s s'}, onVerify id ev s = .ok s' →
      s'.peer.rateQueue = s.peer.rateQueue) (s : Session rl) (mem : Memory) (conn : Nat)
    (noSpecialEvents : Bool) (id : Str) (ev : Event) :
    (s.verified mem conn noSpecialEvents id ev onVerify).peer.rateQueue = s.peer.rateQueue := by
  have caught (s : Session rl) (e : Exn) : (s.caught id e).peer.rateQueue = s.peer.rateQueue := by
    rw [(s.caught_peer id e).1]
  unfold verified
  split
  · exact caught s _
  split
  · split
    · exact caught s _
    · rfl
  split
  · exact caught s _
  have hpeer := s.whitelistCheck_peer mem ev
  generalize s.whitelistCheck mem ev = checked at hpeer ⊢
  obtain ⟨s₁, thrown⟩ := checked
  dsimp only at hpeer
  rw [← hpeer]
  cases thrown with
  | some e => exact caught s₁ e
  | none =>
    dsimp only
    split
    · rename_i s' hdone
      unfold store at hdone
      split at hdone
      · split at hdone
        · cases hdone
        · rw [eventDeletion_peer hdone]
      · exact hverify hdone
    · exact caught s₁ _

theorem onEventGeneric_paced (hverify : ∀ {id ev s s'}, onVerify id ev s = .ok s' →
      s'.peer.rateQueue = s.peer.rateQueue) (s : Session rl) (hn : s.peer.noLimit = false)
    (c : Circumstance) (conn : Nat) (m : Structured) (noSpecialEvents : Bool) :
    s.Paced c.now (s.onEventGeneric c conn m onVerify noSpecialEvents) := by
  have caught (id : Str) (e : Exn) : s.Paced c.now (s.caught id e) := by
    obtain ⟨hpeer, happ⟩ := s.caught_peer id e
    exact .idle happ (by rw [hpeer]) (by rw [hpeer]) _
  unfold onEventGeneric
  split
  · exact caught _ _
  split
  · exact caught _ _
  split
  · exact .idle rfl rfl rfl _
  have hlimited : s.limited c.now = ((testAndAdd rl.options.eventRateWindow
      rl.options.eventRateLimit s.peer.rateQueue c.now).1,
      { s with peer := { s.peer with rateQueue := (testAndAdd rl.options.eventRateWindow
        rl.options.eventRateLimit s.peer.rateQueue c.now).2 } }) := by
    simp only [limited, hn, Bool.false_eq_true, ↓reduceIte]
  rw [hlimited]
  unfold Paced
  generalize testAndAdd rl.options.eventRateWindow rl.options.eventRateLimit s.peer.rateQueue
    c.now = asked
  obtain ⟨allowed, q⟩ := asked
  cases allowed with
  | false => exact Or.inr ⟨rfl, fun h => absurd h (not_posts rfl rfl)⟩
  | true =>
    dsimp only
    split
    · exact Or.inr ⟨rfl, fun _ => rfl⟩
    · exact Or.inr ⟨verified_rateQueue hverify _ c.mem conn noSpecialEvents _ _, fun _ => rfl⟩

end

/-- A text message asks the limiter once at most, and gets nothing in without it. -/
theorem processMessage_paced (s : Session rl) (hn : s.peer.noLimit = false) (c : Circumstance)
    (conn : Nat) (payload : Str) : s.Paced c.now (s.processMessage c conn payload) := by
  have h := s.processMessage_dispatched c conn payload
  generalize s.processMessage c conn payload = s' at h ⊢
  cases h with
  | event msg o notices named =>
    refine onEventGeneric_paced (fun {id ev s s'} h => ?_) { s with out := s.out ++ o } hn c conn
      (msg.item 1) false
    unfold publishVerified at h
    split at h <;> cases h
    rfl
  | file msg o notices named =>
    refine onEventGeneric_paced (fun {id ev s s'} h => ?_) { s with out := s.out ++ o } hn c conn
      (msg.item 1) true
    unfold awaitFile at h
    split at h <;> cases h <;> rfl
  | req msg o notices named done =>
    unfold onReq at done
    split at done
    · split at done <;> cases done <;> exact .idle rfl rfl rfl _
    · cases done
  | close msg o notices named done =>
    obtain ⟨id, -, rfl⟩ := Option.map_eq_some_iff.mp done
    exact .idle rfl rfl rfl _
  | auth msg o notices named done =>
    obtain ⟨id, -, rfl⟩ := Option.map_eq_some_iff.mp done
    split <;> exact .idle rfl rfl rfl _
  | other app peer => exact .idle app (by rw [peer]) (by rw [peer]) _

theorem processBinaryMessage_rateQueue (s : Session rl) (mem : Memory) (data : Str) :
    (s.processBinaryMessage mem data).1.peer.rateQueue = s.peer.rateQueue := by
  unfold processBinaryMessage
  split
  · rfl
  · dsimp only
    split
    · rfl
    split
    · rfl
    split <;> rfl

end Session

namespace Server

/-- When the message of a turn got an event in. Uploads are not limited: their events
were, when they were announced. -/
def postTime (conn : Nat) : Server rl × Input → Option Int
  | (sv, .frame _ (.text payload) c) =>
    if (sv.peers conn).any (fun p =>
        decide ((sv.session p).Posts ((sv.session p).processMessage c conn payload))) then
      some c.now
    else none
  | _ => none

def postTimes (m : Machine (Server rl) Input) (conn : Nat) (inputs : List Input) : List Int :=
  (m.turns (takes conn) inputs).filterMap (postTime conn)

def messageTimes (conn : Nat) (inputs : List Input) : List Int :=
  inputs.filterMap (fun
    | .frame i _ c => if i = conn then some c.now else none
    | _ => none)

theorem postTimes_snoc (m : Machine (Server rl) Input) (conn : Nat) (pre : List Input)
    (x : Input) : postTimes m conn (pre ++ [x]) = postTimes m conn pre ++
      if takes conn (m.run pre) x then (postTime conn (m.run pre, x)).toList else [] := by
  unfold postTimes
  rw [Machine.turns_snoc, List.filterMap_append]
  split
  · cases hx : postTime conn (m.run pre, x) <;> simp [hx]
  · rfl

theorem messageTimes_snoc (conn : Nat) (pre : List Input) (x : Input) :
    (messageTimes conn pre).Sublist (messageTimes conn (pre ++ [x])) := by
  unfold messageTimes
  rw [List.filterMap_append]
  exact List.sublist_append_left _ _

/-- The times the limiter of a connection was asked at, and what it has to do with the
events that got in. -/
structure Asked (m : Machine (Server rl) Input) (conn : Nat) (inputs : List Input)
    (times : List Int) : Prop where
  among : times.Sublist (messageTimes conn inputs)
  queue : ∀ p, (m.run inputs).peers conn = some p → p.rateQueue =
    ((rateLimiter rl.options.eventRateWindow rl.options.eventRateLimit).run times).queue
  posted : (postTimes m conn inputs).Sublist (admitted
    ((rateLimiter rl.options.eventRateWindow rl.options.eventRateLimit).run times).answered)

theorem Asked.idle {m : Machine (Server rl) Input} {pre : List Input} {times : List Int}
    (h : Asked m conn pre times) (x : Input)
    (hposted : takes conn (m.run pre) x = true → postTime conn (m.run pre, x) = none)
    (hqueue : ∀ q, (m.run (pre ++ [x])).peers conn = some q →
      ∃ p, (m.run pre).peers conn = some p ∧ q.rateQueue = p.rateQueue) :
    Asked m conn (pre ++ [x]) times := by
  refine ⟨h.among.trans (messageTimes_snoc conn pre x), fun q hq => ?_, ?_⟩
  · obtain ⟨p, hp, he⟩ := hqueue q hq
    exact he.trans (h.queue p hp)
  · rw [postTimes_snoc]
    split
    · rename_i ht
      rw [hposted ht]
      simpa using h.posted
    · simpa using h.posted

theorem rateLimiter_snoc (window limit : Nat) (times : List Int) (t : Int) :
    (rateLimiter window limit).run (times ++ [t]) =
      ⟨(testAndAdd window limit ((rateLimiter window limit).run times).queue t).2,
        ((rateLimiter window limit).run times).answered ++
          [(t, (testAndAdd window limit ((rateLimiter window limit).run times).queue t).1)]⟩ :=
  (rateLimiter window limit).run_snoc times t

/-- A text message of the connection, by what it had to do with the limiter. -/
theorem Asked.message {m : Machine (Server rl) Input} {pre : List Input} {times : List Int}
    (h : Asked m conn pre times) (hp : (m.run pre).peers conn = some p) {payload : Str}
    {c : Circumstance} (hn : p.noLimit = false)
    (hqueue : ∀ q, (m.run (pre ++ [.frame conn (.text payload) c])).peers conn = some q →
      q = (((m.run pre).session p).processMessage c conn payload).peer) :
    ∃ times', Asked m conn (pre ++ [.frame conn (.text payload) c]) times' := by
  have hposted : postTime conn (m.run pre, .frame conn (.text payload) c) =
      if ((m.run pre).session p).Posts (((m.run pre).session p).processMessage c conn payload)
      then some c.now else none := by
    simp [postTime, hp]
  rcases ((m.run pre).session p).processMessage_paced hn c conn payload with
    ⟨hsame, hidle⟩ | ⟨hasked, hroom⟩
  · refine ⟨times, h.idle _ (fun _ => hposted.trans (if_neg hidle)) (fun q hq => ⟨p, hp, ?_⟩)⟩
    rw [hqueue q hq]
    exact hsame
  · have hrun := rateLimiter_snoc rl.options.eventRateWindow rl.options.eventRateLimit times c.now
    have hold : ((m.run pre).session p).peer.rateQueue = _ := h.queue p hp
    rw [hold] at hasked hroom
    refine ⟨times ++ [c.now], ?_, fun q hq => ?_, ?_⟩
    · unfold messageTimes
      rw [List.filterMap_append]
      exact h.among.append (by simp)
    · rw [hqueue q hq, hrun]
      exact hasked
    · rw [hrun, postTimes_snoc, admitted_snoc, hposted]
      refine h.posted.append ?_
      split
      · split
        · rename_i hposts
          rw [hroom hposts]
          exact List.Sublist.refl _
        · exact List.nil_sublist _
      · exact List.nil_sublist _

/-- One step of `posts_limited`. -/
theorem step_asked {m : Machine (Server rl) Input} (hm : m.step = step) {pre : List Input}
    {times : List Int} (h : Asked m conn pre times) (hregular : (m.run pre).Regular) (x : Input)
    (hx : ∀ k n, x ≠ .connect conn k n) : ∃ times', Asked m conn (pre ++ [x]) times' := by
  have hrun : m.run (pre ++ [x]) = (m.run pre).step x := by rw [m.run_snoc, hm]
  have kept (hframe : ∀ f c, x ≠ .frame conn f c) {q : Peer}
      (hq : (m.run (pre ++ [x])).peers conn = some q) : (m.run pre).peers conn = some q := by
    rw [hrun] at hq
    rcases (m.run pre).step_peers x hq with ⟨hold, -⟩ | ⟨k, n, he, -⟩ | ⟨_, f, c, -, he, -⟩
    · exact hold
    · exact absurd he (hx k n)
    · exact absurd he (hframe f c)
  have still (hframe : ∀ f c, x ≠ .frame conn f c) (hidle : takes conn (m.run pre) x = false) :
      ∃ times', Asked m conn (pre ++ [x]) times' :=
    ⟨times, h.idle x (fun ht => absurd ht (by simp [hidle])) (fun q hq => ⟨q, kept hframe hq, rfl⟩)⟩
  cases x with
  | connect i k n =>
    refine still (fun _ _ he => ?_) ?_
    · cases he
    have hne : i ≠ conn := fun he => hx k n (he ▸ rfl)
    simp [takes, hne]
  | gc mem =>
    refine still (fun _ _ he => ?_) rfl
    cases he
  | frame i f c =>
    by_cases hi : i = conn
    · subst hi
      have hpeers {q : Peer} (hq : (m.run (pre ++ [.frame i f c])).peers i = some q) :
          ∃ p, (m.run pre).peers i = some p ∧
            q = (((m.run pre).session p).handle i f c).1.peer := by
        rw [hrun] at hq
        rcases (m.run pre).step_peers _ hq with ⟨-, hno⟩ | ⟨_, _, he, -⟩ | ⟨p, _, _, hp, he, hq⟩
        · exact absurd rfl (hno f c)
        · cases he
        · cases he
          exact ⟨p, hp, hq⟩
      cases f with
      | text payload =>
        cases hp : (m.run pre).peers i with
        | none =>
          refine ⟨times, h.idle _ (fun _ => by simp [postTime, hp]) (fun q hq => ?_)⟩
          obtain ⟨p, hthere, -⟩ := hpeers hq
          cases hp.symm.trans hthere
        | some p =>
          refine h.message hp (hregular.unprivileged i p hp) (fun q hq => ?_)
          obtain ⟨p', hthere, he⟩ := hpeers hq
          cases hp.symm.trans hthere
          exact he
      | binary data =>
        refine ⟨times, h.idle _ (fun _ => rfl) (fun q hq => ?_)⟩
        obtain ⟨p, hp, rfl⟩ := hpeers hq
        exact ⟨p, hp, ((m.run pre).session p).processBinaryMessage_rateQueue c.mem data⟩
      | _ =>
        refine ⟨times, h.idle _ (fun _ => rfl) (fun q hq => ?_)⟩
        obtain ⟨p, hp, he⟩ := hpeers hq
        exact ⟨p, hp, by rw [he]; rfl⟩
    · refine still (fun f' c' he => hi (Input.frame.inj he).1) ?_
      simp [takes, hi]

/-- On every connection, whatever happens on the others, the messages that get an event in
within a window are no more than the limit. -/
theorem posts_limited (pre : List Input) (hnew : (run rl pre).peers conn = none)
    (authPubkey : Pubkey) (nonce : Str) (msgs : List Input)
    (hone : ∀ x ∈ msgs, ∀ k n, x ≠ .connect conn k n) (hw : 0 < rl.options.eventRateWindow)
    (hclock : (messageTimes conn msgs).Pairwise (· ≤ ·)) (t : Int) :
    (postTimes ((run rl pre).connected conn authPubkey nonce) conn msgs).countP (fun u =>
      t ≤ u && u ≤ t + rl.options.eventRateWindow * 1000000000) ≤ rl.options.eventRateLimit := by
  have hrun (ms : List Input) : ((run rl pre).connected conn authPubkey nonce).run ms =
      run rl (pre ++ [.connect conn authPubkey nonce] ++ ms) := by
    simp [run, machine, connected, Machine.run]
  have hmsgs : ((run rl pre).connected conn authPubkey nonce).Throughout
      (fun _ x => ∀ k n, x ≠ .connect conn k n) msgs :=
    fun ms x post he => hone x (by simp [he])
  have hasked : ∃ times,
      Asked ((run rl pre).connected conn authPubkey nonce) conn msgs times := by
    refine Machine.run_induction (P := fun ms => ∃ times,
      Asked ((run rl pre).connected conn authPubkey nonce) conn ms times) ⟨[], ?_⟩
      (fun ms x ih hx => ?_) hmsgs
    · refine ⟨List.nil_sublist _, fun p hp => ?_, List.nil_sublist _⟩
      have hfirst : ((run rl pre).step (.connect conn authPubkey nonce)).peers conn = some p := hp
      simp only [step, hnew, Option.isSome_none, Bool.false_eq_true, ↓reduceIte, setPeer]
        at hfirst
      cases hfirst
      rfl
    · obtain ⟨times, h⟩ := ih
      exact step_asked rfl h (by rw [hrun]; exact run_regular _) x hx
  obtain ⟨times, h⟩ := hasked
  have hposted := h.posted
  rw [rateLimiter_calls hw] at hposted
  refine hposted.countP_le.trans ?_
  exact window_count (fun _ _ => beginWindow_mono _) (hclock.sublist h.among)
    (by simp [beginWindow])

def slowRelay : Relay :=
  sampleRelay { eventRateLimit := 1 } [(noteText, note), (minedText, minedNote)]
    [noteMessage, minedMessage]

def twoNotes : List Input := [noteMessage.sent Memory.zeros, minedMessage.sent Memory.zeros]

/-- Of two notes at once it takes the first. -/
theorem second_note_limited :
    postTimes ((run slowRelay []).connected 0 (.ofNat 0) []) 0 twoNotes = [0] ∧
    ∀ t : Int, (postTimes ((run slowRelay []).connected 0 (.ofNat 0) []) 0 twoNotes).countP
      (fun u => t ≤ u && u ≤ t + slowRelay.options.eventRateWindow * 1000000000) ≤
        slowRelay.options.eventRateLimit := by
  have hnew : (run slowRelay []).peers 0 = none := rfl
  have hclock : (messageTimes 0 twoNotes).Pairwise (· ≤ ·) := by decide +kernel
  refine ⟨by decide +kernel, posts_limited [] hnew (.ofNat 0) [] twoNotes (fun x hx k n => ?_)
    (by decide) hclock⟩
  rcases List.mem_pair.mp hx with rfl | rfl <;> exact nofun

end Server

end NostrServer
