import NostrServer.Connection
import NostrServer.ReferenceServer

namespace NostrServer
open Docdb

variable {rl : Relay}

/-- `Peer::filter_event`: the ids its callback is invoked with. -/
def Peer.filterEvent (hasher : Str → UInt64) (p : Peer) (doc : Event) : List Str :=
  (p.subscriptions.filter (fun sbs => sbs.2.any (fun f => f.test hasher doc))).map Prod.fst

/-- A list that stands for a map is gone through once for each id. -/
theorem Peer.filterEvent_map {p : Peer} {t : Str → Option (List Filter)}
    (h : KeyedList.StandsFor p.subscriptions t) (hasher : Str → UInt64) (doc : Event) :
    (p.filterEvent hasher doc).Nodup ∧
      ∀ subid, subid ∈ p.filterEvent hasher doc ↔ ∃ flts, t subid = some flts ∧
        flts.any (fun f => f.test hasher doc) = true := by
  refine ⟨(KeyedList.keys_nodup h).sublist (List.filter_sublist.map _), fun subid => ?_⟩
  simp only [filterEvent, List.mem_map, List.mem_filter, Prod.exists, exists_and_right,
    exists_eq_right]
  constructor
  · rintro ⟨flts, hin, hpasses⟩
    exact ⟨flts, (KeyedList.mem_iff h).mp hin, hpasses⟩
  · rintro ⟨flts, ht, hpasses⟩
    exact ⟨flts, (KeyedList.mem_iff h).mpr ht, hpasses⟩

def Input.asks (rl : Relay) (conn : Nat) : Input → Option (KeyOp Str (List Filter))
  | .frame i f c => if i = conn then f.asks rl c.mem else none
  | _ => none

/-- The filters of the last REQ for an id that no CLOSE came after. -/
def lastAsked (rl : Relay) (conn : Nat) (inputs : List Input) : Str → Option (List Filter) :=
  KeyedList.made (inputs.filterMap (Input.asks rl conn))

theorem lastAsked_eq_some {inputs : List Input} : lastAsked rl conn inputs subid = some flts ↔
    ∃ before x after, inputs = before ++ x :: after ∧ x.asks rl conn = some (.opens subid flts) ∧
      ∀ y ∈ after, ∀ op, y.asks rl conn = some op → op.key ≠ subid := by
  unfold lastAsked
  rw [KeyedList.made_eq_some]
  constructor
  · intro ⟨ops, ops', he, hlater⟩
    obtain ⟨before, rest, rfl, -, hrest⟩ := List.filterMap_eq_append_iff.mp he
    obtain ⟨between, x, after, rfl, -, hx, hafter⟩ := List.filterMap_eq_cons_iff.mp hrest
    refine ⟨before ++ between, x, after, by simp, hx, fun y hy op hop => hlater op ?_⟩
    exact hafter ▸ List.mem_filterMap.mpr ⟨y, hy, hop⟩
  · intro ⟨before, x, after, he, hx, hlater⟩
    refine ⟨before.filterMap (Input.asks rl conn),
      after.filterMap (Input.asks rl conn), by simp [he, hx], fun op hop => ?_⟩
    obtain ⟨y, hy, hop⟩ := List.mem_filterMap.mp hop
    exact hlater y hy op hop

namespace Server

def connected (sv : Server rl) (conn : Nat) (authPubkey : Pubkey)
    (nonce : Str) : Machine (Server rl) Input :=
  ⟨sv.step (.connect conn authPubkey nonce), step⟩

/-- A REQ opens an id that is not open. If its answer is cut short, it asks for what is
open already. -/
def OpensAnew (conn : Nat) (sv : Server rl) : Input → Prop
  | .frame i f c => i = conn → ∀ p subid flts, sv.peers conn = some p →
    f.asks rl c.mem = some (.opens subid flts) →
      KeyedList.valuesUnder p.subscriptions subid =
        if ((sv.session p).storedAnswer c.takes flts subid).2 then [] else [flts]
  | _ => True

theorem opensAnew_check {sv : Server rl} (i : Nat) (f : Frame) (c : Circumstance) :
    (i = conn → (sv.peers conn).all (fun p => (f.asks rl c.mem).all (fun op => match op with
      | .opens subid flts => KeyedList.valuesUnder p.subscriptions subid =
          if ((sv.session p).storedAnswer c.takes flts subid).2 then [] else [flts]
      | .closes _ => true)) = true) ↔ sv.OpensAnew conn (.frame i f c) := by
  apply imp_congr_right
  intro _
  rw [Option.all_eq_true]
  constructor
  · intro h p subid flts hp hasks
    have hone := (Option.all_eq_true _ _).mp (h p hp) _ hasks
    exact of_decide_eq_true hone
  · intro h p hp
    apply (Option.all_eq_true _ _).mpr
    intro op hop
    cases op with
    | opens subid flts => exact decide_eq_true (h p subid flts hp hop)
    | closes subid => rfl

instance (conn : Nat) (sv : Server rl) (x : Input) : Decidable (sv.OpensAnew conn x) :=
  match x with
  | .frame i f c => decidable_of_iff (i = conn →
    (sv.peers conn).all (fun p => (f.asks rl c.mem).all (fun op => match op with
      | .opens subid flts => KeyedList.valuesUnder p.subscriptions subid =
          if ((sv.session p).storedAnswer c.takes flts subid).2 then [] else [flts]
      | .closes _ => true)) = true) (opensAnew_check i f c)
  | .connect .. => isTrue trivial
  | .gc _ => isTrue trivial

/-- The peer of a connection after an input: gone, or with what the input asked for. -/
theorem step_peer (sv : Server rl) (x : Input) (hx : ∀ k n, x ≠ .connect conn k n)
    (hq : (sv.step x).peers conn = some q) :
    ∃ p, sv.peers conn = some p ∧ ((x.asks rl conn = none ∧ q.subscriptions = p.subscriptions) ∨
      ∃ f c, x = .frame conn f c ∧
        q.subscriptions = (sv.session p).subscribed c (f.asks rl c.mem)) := by
  rcases sv.step_peers x hq with ⟨hold, hframe⟩ | ⟨k, nonce, hconnect, _⟩ | ⟨p, f, c, hp, rfl, rfl⟩
  · refine ⟨q, hold, Or.inl ⟨?_, rfl⟩⟩
    cases x with
    | frame i f c => exact if_neg (fun hi => hframe f c (by rw [hi]))
    | _ => rfl
  · exact absurd hconnect (hx k nonce)
  · exact ⟨p, hp, Or.inr ⟨f, c, rfl, (sv.session p).handle_subscriptions conn f c⟩⟩

def askedFor (rl : Relay) (conn : Nat) (t : Str → Option (List Filter)) (x : Input) : Str →
    Option (List Filter) :=
  match x.asks rl conn with
  | some op => KeyedList.applied t op
  | none => t

/-- A connection whose subscriptions stood for the map before an input is one whose
subscriptions stand for it after, exactly when the input opens an id anew. -/
theorem step_standsFor_iff (sv : Server rl) (x : Input) (hx : ∀ k n, x ≠ .connect conn k n)
    (hp : sv.peers conn = some p) (h : KeyedList.StandsFor p.subscriptions t)
    (hq : (sv.step x).peers conn = some q) :
    KeyedList.StandsFor q.subscriptions (askedFor rl conn t x) ↔ sv.OpensAnew conn x := by
  obtain ⟨p', hp', hcase⟩ := sv.step_peer x hx hq
  cases hp.symm.trans hp'
  rcases hcase with ⟨hnone, hsubs⟩ | ⟨f, c, rfl, hsubs⟩
  · have hopens : sv.OpensAnew conn x := by
      cases x with
      | frame i f c =>
        intro hi p subid flts _ hasks
        have hsome : (Input.frame i f c).asks rl conn = some (.opens subid flts) :=
          (if_pos hi).trans hasks
        cases hnone.symm.trans hsome
      | _ => trivial
    simp only [askedFor, hnone, hsubs, hopens, iff_true]
    exact h
  · have hasks : (Input.frame conn f c).asks rl conn = f.asks rl c.mem := if_pos rfl
    have hvalues (subid : Str) (flts : List Filter) (through : Bool) :
        KeyedList.valuesUnder p.subscriptions subid =
        (if through then [] else [flts]) ↔ t subid = if through then none else some flts := by
      rw [h subid]
      cases through <;> cases t subid <;> simp
    have hopens : sv.OpensAnew conn (.frame conn f c) ↔ ∀ subid flts,
        f.asks rl c.mem = some (.opens subid flts) →
        t subid = if ((sv.session p).storedAnswer c.takes flts subid).2 then none
          else some flts := by
      constructor
      · intro hx subid flts hasks
        exact (hvalues _ _ _).mp (hx rfl p subid flts hp hasks)
      · intro hx _ p' subid flts hp' hasks
        cases hp.symm.trans hp'
        exact (hvalues _ _ _).mpr (hx subid flts hasks)
    rw [hopens, hsubs, askedFor, hasks]
    have hsame : (sv.session p).peer.subscriptions = p.subscriptions := rfl
    cases hop : f.asks rl c.mem with
    | none =>
      simp only [Session.subscribed, hsame, reduceCtorEq, false_imp_iff, implies_true, iff_true]
      exact h
    | some op =>
      cases op with
      | closes subid =>
        simp only [Session.subscribed, hsame, Option.some.injEq, reduceCtorEq, false_imp_iff,
          implies_true, iff_true]
        exact KeyedList.standsFor_closed h subid
      | opens subid flts =>
        have hone : (∀ subid' flts',
            some (KeyOp.opens subid flts) = some (KeyOp.opens subid' flts') →
            t subid' = if ((sv.session p).storedAnswer c.takes flts' subid').2 then none
              else some flts') ↔
            t subid = if ((sv.session p).storedAnswer c.takes flts subid).2 then none
              else some flts := by
          refine ⟨fun hx => hx subid flts rfl, fun hx subid' flts' he => ?_⟩
          cases he
          exact hx
        rw [hone]
        simp only [Session.subscribed, hsame]
        cases ((sv.session p).storedAnswer c.takes flts subid).2 with
        | true => exact KeyedList.standsFor_snoc_iff h subid flts
        | false => exact KeyedList.standsFor_same_iff h subid flts

/-- A connection that asks for something stays. -/
theorem step_stays (sv : Server rl) (hp : sv.peers conn = some p) (h : f.asks rl c.mem = some op) :
    ∃ q, (sv.step (.frame conn f c)).peers conn = some q := by
  cases f with
  | text payload =>
    exact ⟨((sv.session p).processMessage c conn payload).peer,
      by simp only [step, hp, Session.handle, setPeer, ↓reduceIte]⟩
  | _ => cases h

theorem lastAsked_snoc (rl : Relay) (conn : Nat) (pre : List Input) (x : Input) :
    lastAsked rl conn (pre ++ [x]) = askedFor rl conn (lastAsked rl conn pre) x := by
  unfold lastAsked askedFor
  rw [List.filterMap_append]
  cases hx : x.asks rl conn with
  | none => simp [hx]
  | some op => simp [hx, KeyedList.made_snoc]

/-- The peer of a connection just taken has no subscriptions. -/
theorem connected_peer (sv : Server rl) (hnew : sv.peers conn = none)
    (authPubkey : Pubkey) (nonce : Str)
    (hp : (sv.step (.connect conn authPubkey nonce)).peers conn = some p) :
    p.subscriptions = [] := by
  simp only [step, hnew, Option.isSome_none, Bool.false_eq_true, ↓reduceIte, setPeer] at hp
  cases hp
  rfl

/-- On every connection the subscriptions are the map of what was asked for last, and each
is called back once at most for an event, in all states exactly when REQs open ids anew. -/
theorem subscriptions_map_iff (sv : Server rl) (hnew : sv.peers conn = none)
    (authPubkey : Pubkey) (nonce : Str) (msgs : List Input)
    (hone : ∀ x ∈ msgs, ∀ k n, x ≠ .connect conn k n) :
    (∀ pre post p, msgs = pre ++ post →
      ((sv.connected conn authPubkey nonce).run pre).peers conn = some p →
      KeyedList.StandsFor p.subscriptions (lastAsked rl conn pre) ∧ ∀ ev,
        (p.filterEvent rl.ext.hasher ev).Nodup) ↔
    (sv.connected conn authPubkey nonce).Throughout (OpensAnew conn) msgs := by
  constructor
  · intro h pre x post he
    cases x with
    | connect i k n => trivial
    | gc mem => trivial
    | frame i f c =>
      intro hi p subid flts hp hasks
      subst hi
      have hx (k : Pubkey) (n : Str) : Input.frame i f c ≠ .connect i k n := nofun
      obtain ⟨q, hq⟩ := step_stays ((sv.connected i authPubkey nonce).run pre) hp hasks
      have hnext := (h (pre ++ [.frame i f c]) post q (by simp [he])
        (by rw [Machine.run_snoc]; exact hq)).1
      rw [lastAsked_snoc] at hnext
      exact (step_standsFor_iff _ _ hx hp (h pre _ p he hp).1 hq).mp hnext rfl p subid flts hp hasks
  · intro h pre post p he hp
    have hstands : ∀ p, ((sv.connected conn authPubkey nonce).run pre).peers conn = some p →
        KeyedList.StandsFor p.subscriptions (lastAsked rl conn pre) := by
      have hpre : (sv.connected conn authPubkey nonce).Throughout
          (fun sv x => sv.OpensAnew conn x ∧ ∀ k n, x ≠ .connect conn k n) pre := by
        intro before x after hb
        exact ⟨h before x (after ++ post) (by simp [he, hb]), hone x (by simp [he, hb])⟩
      refine Machine.run_induction (P := fun pre => ∀ p,
        ((sv.connected conn authPubkey nonce).run pre).peers conn = some p →
        KeyedList.StandsFor p.subscriptions (lastAsked rl conn pre)) (fun p hp =>
          ?_) (fun pre x ih hx q hq => ?_) hpre
      · rw [sv.connected_peer hnew authPubkey nonce hp]
        exact KeyedList.standsFor_nil
      · rw [Machine.run_snoc] at hq
        obtain ⟨p, hp, _⟩ := step_peer _ x hx.2 hq
        rw [lastAsked_snoc]
        exact (step_standsFor_iff _ x hx.2 hp (ih p hp) hq).mpr hx.1
    exact ⟨hstands p hp, fun ev => (Peer.filterEvent_map (hstands p hp) _ ev).1⟩

def reqMessage (kind : Int) : Structured :=
  .array [.string (str "REQ"), .string (str "q"), .object [(str "kinds", .array [.int kind])]]

def closeMessage : Structured := .array [.string (str "CLOSE"), .string (str "q")]

def askedRelay : Relay := sampleRelay {} [] [reqMessage 1, reqMessage 4, closeMessage]

def askedTwice : List Input := [(reqMessage 1).sent Memory.zeros, (reqMessage 4).sent Memory.zeros]

/-- The second REQ does not take the place of the first. -/
theorem repeated_req_adds : ¬ ∀ pre post p, askedTwice = pre ++ post →
    (((start askedRelay).connected 0 (.ofNat 0) []).run pre).peers 0 = some p →
    KeyedList.StandsFor p.subscriptions (lastAsked askedRelay 0 pre) ∧ ∀ ev,
      (p.filterEvent askedRelay.ext.hasher ev).Nodup := by
  intro h
  have htwo : ((((start askedRelay).connected 0 (.ofNat 0) []).run askedTwice).peers 0).any
      (fun p =>
      p.subscriptions.map Prod.fst = [str "q", str "q"]) = true := by decide +kernel
  obtain ⟨p, hp, hkeys⟩ := (Option.any_eq_true _ _).mp htwo
  have hnodup := KeyedList.keys_nodup (h askedTwice [] p (List.append_nil _).symm hp).1
  rw [of_decide_eq_true hkeys] at hnodup
  exact absurd hnodup (by decide)

def askedAgain : List Input :=
  [(reqMessage 1).sent Memory.zeros, closeMessage.sent Memory.zeros,
    (reqMessage 4).sent Memory.zeros]

/-- An id that was closed can be opened again. -/
theorem closed_req_opens :
    ∃ p, (((start askedRelay).connected 0 (.ofNat 0) []).run askedAgain).peers 0 = some p ∧
    KeyedList.StandsFor p.subscriptions (lastAsked askedRelay 0 askedAgain) ∧
    ∀ ev, (p.filterEvent askedRelay.ext.hasher ev).Nodup := by
  have hpeer : ((((start askedRelay).connected 0 (.ofNat 0) []).run askedAgain).peers 0).isSome =
      true := by decide +kernel
  have hanew : ((start askedRelay).connected 0 (.ofNat 0) []).Throughout (OpensAnew 0) askedAgain :=
    ((Machine.throughout_nil.snoc (by decide +kernel)).snoc (by decide +kernel)).snoc
      (by decide +kernel)
  obtain ⟨p, hp⟩ := Option.isSome_iff_exists.mp hpeer
  refine ⟨p, hp, (subscriptions_map_iff (start askedRelay) rfl (.ofNat 0) [] askedAgain
    (fun x hx => ?_)).mpr hanew
    askedAgain [] p (List.append_nil _).symm hp⟩
  simp only [askedAgain, Structured.sent, List.mem_cons, List.not_mem_nil, or_false] at hx
  rcases hx with rfl | rfl | rfl <;> intro k n he <;> cases he

end Server

end NostrServer
