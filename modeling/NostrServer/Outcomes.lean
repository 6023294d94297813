import NostrServer.Peer

namespace NostrServer
open Docdb

/-- The applications differ in the flag of `check_whitelist` at most. -/
structure App.Same {rl : Relay} (a b : App rl) : Prop where
  storage : a.storage = b.storage
  karma : a.karma = b.karma
  attachments : a.attachments = b.attachments
  published : a.published = b.published
  gcStarts : a.gcStarts = b.gcStarts

theorem App.Same.rfl {rl : Relay} {a : App rl} : a.Same a :=
  ⟨Eq.refl _, Eq.refl _, Eq.refl _, Eq.refl _, Eq.refl _⟩

theorem App.Same.trans {rl : Relay} {a b c : App rl} (h : a.Same b) (h' : b.Same c) : a.Same c :=
  ⟨h.storage.trans h'.storage, h.karma.trans h'.karma, h.attachments.trans h'.attachments,
    h.published.trans h'.published, h.gcStarts.trans h'.gcStarts⟩

theorem App.same_checkWhitelist {rl : Relay} (a : App rl) (k : Pubkey) :
    (a.checkWhitelist k).2.Same a := by
  unfold App.checkWhitelist
  cases a.emptyDatabase <;> dsimp only <;> repeat' first | split | exact ⟨rfl, rfl, rfl, rfl, rfl⟩

namespace Session
variable {rl : Relay}

/-- The message stored nothing, published nothing and left the pending file alone. -/
structure Quiet (s s' : Session rl) : Prop where
  app : s'.app.Same s.app
  fileEvent : s'.peer.fileEvent = s.peer.fileEvent
  noLimit : s'.peer.noLimit = s.peer.noLimit

theorem Quiet.refl (s : Session rl) : Quiet s s := ⟨App.Same.rfl, rfl, rfl⟩

theorem Quiet.trans (h : Quiet s s₁) (h' : Quiet s₁ s₂) : Quiet s s₂ :=
  ⟨h'.app.trans h.app, h'.fileEvent.trans h.fileEvent, h'.noLimit.trans h.noLimit⟩

theorem quiet_send (h : Quiet s s') (r : Reply) : Quiet s (s'.send r) :=
  ⟨h.app, h.fileEvent, h.noLimit⟩

theorem quiet_caught (h : Quiet s s') (id : Str) (e : Exn) : Quiet s (s'.caught id e) := by
  cases e <;> exact quiet_send h _

theorem limited_quiet (s : Session rl) (now : Int) :
    Quiet s (s.limited now).2 ∧ (s.limited now).2.app = s.app ∧ (s.limited now).2.out = s.out ∧
    (s.limited now).2.peer.authent = s.peer.authent ∧
    (s.limited now).2.peer.authPubkey = s.peer.authPubkey := by
  unfold limited
  split <;> exact ⟨⟨App.Same.rfl, rfl, rfl⟩, rfl, rfl, rfl, rfl⟩

/-- What `on_event_generic` has seen of an event once its signature is verified. -/
structure Passed (s : Session rl) (c : Circumstance) (m : Structured)
    (noSpecialEvents : Bool) (id : Str) (ev : Event) : Prop where
  text : rl.ext.asString (m.field (str "id")) = some id
  parsed : ∃ ev', Event.fromStructured rl.ext c.mem.event m = .ok ev' ∧ ev = s.trust ev'
  fresh : noSpecialEvents = false → s.app.findEventById ev.id = 0
  pow : s.peer.noLimit = false → 0 < rl.options.pow → checkPow rl.options.pow id = true
  signed : ev.verify rl.ext = true

/-- And once it has let it through to be stored. -/
structure LetIn (s : Session rl) (c : Circumstance) (ev : Event) : Prop where
  kind : ¬ (ev.kind ≥ Kind.ephemeralBegin ∧ ev.kind < Kind.ephemeralEnd)
  writable : s.peer.noLimit = false → rl.options.readOnly = false
  invited : s.peer.noLimit = false → rl.options.whitelisting = true → ev.trusted = true ∨
    (s.app.checkWhitelist ev.author).1 = true ∨
    ((ev.kind = Kind.encryptedDirectMessages ∨ ev.kind = Kind.giftWrapEvent) ∧
      s.app.isHomeUser (fromHex c.mem.target (ev.getTagContent (str "p"))) = true)

/-- Everything `on_event_generic` can do. -/
inductive Outcome (s : Session rl) (c : Circumstance) (self : Nat) (m : Structured)
    (onVerify : Str → Event → Session rl → Except Exn (Session rl)) (noSpecialEvents : Bool) :
    Session rl → Prop where
  | rejected (id text : Str) (quiet : Quiet s s') (out : s'.out = s.out ++ [.ok id false text]) :
      Outcome s c self m onVerify noSpecialEvents s'
  | known (id : Str) (ev : Event) (parsed : Event.fromStructured rl.ext c.mem.event m = .ok ev)
      (special : noSpecialEvents = false) (there : s.app.findEventById ev.id ≠ 0) :
      Outcome s c self m onVerify noSpecialEvents (s.send (.ok id true (str "duplicate: ok")))
  | broadcast (id : Str) (ev : Event) (s₁ : Session rl)
    (passed : Passed s c m noSpecialEvents id ev)
      (kind : ev.kind ≥ Kind.ephemeralBegin ∧ ev.kind < Kind.ephemeralEnd)
        (special : noSpecialEvents = false)
      (quiet : Quiet s s₁) : Outcome s c self m onVerify noSpecialEvents
        ({ s₁ with app := s₁.app.publishEvent ev (some self) }.send (.ok id true []))
  | refused (id : Str) (ev : Event) (s₁ : Session rl) (e : Exn)
    (passed : Passed s c m noSpecialEvents id ev)
      (letIn : LetIn s c ev) (quiet : Quiet s s₁) (out : s₁.out = s.out)
      (threw : s₁.store c.mem self noSpecialEvents id ev onVerify = .error e) :
      Outcome s c self m onVerify noSpecialEvents (s₁.caught id e)
  | stored (id : Str) (ev : Event) (s₁ : Session rl) (passed : Passed s c m noSpecialEvents id ev)
      (letIn : LetIn s c ev) (quiet : Quiet s s₁) (out : s₁.out = s.out)
      (done : s₁.store c.mem self noSpecialEvents id ev onVerify = .ok s') :
      Outcome s c self m onVerify noSpecialEvents s'

theorem whitelistCheck_spec (s : Session rl) (mem : Memory) (ev : Event) :
    Quiet s (s.whitelistCheck mem ev).1 ∧ (s.whitelistCheck mem ev).1.out = s.out ∧
    ((s.whitelistCheck mem ev).2 = none → s.peer.noLimit = false → rl.options.whitelisting = true →
      ev.trusted = true ∨ (s.app.checkWhitelist ev.author).1 = true ∨
      ((ev.kind = Kind.encryptedDirectMessages ∨ ev.kind = Kind.giftWrapEvent) ∧
        s.app.isHomeUser (fromHex mem.target (ev.getTagContent (str "p"))) = true)) ∧
    ((s.whitelistCheck mem ev).2 = none ∨
      ∃ text, (s.whitelistCheck mem ev).2 = some (.blocked text)) := by
  have hsame := s.app.same_checkWhitelist ev.author
  have hhome (pk : Pubkey) :
      (s.app.checkWhitelist ev.author).2.isHomeUser pk = s.app.isHomeUser pk := by
    simp [App.isHomeUser, hsame.karma]
  unfold whitelistCheck
  split
  · dsimp only
    split
    · rename_i hin
      exact ⟨⟨hsame, rfl, rfl⟩, rfl, fun _ _ _ => Or.inr (Or.inl hin), Or.inl rfl⟩
    · split
      · rename_i hk
        split
        · rename_i ht
          exact ⟨⟨hsame, rfl, rfl⟩, rfl,
            fun _ _ _ => Or.inr (Or.inr ⟨hk, (hhome _).symm.trans ht⟩), Or.inl rfl⟩
        · exact ⟨⟨hsame, rfl, rfl⟩, rfl, fun h => by simp at h, Or.inr ⟨_, rfl⟩⟩
      · exact ⟨⟨hsame, rfl, rfl⟩, rfl, fun h => by simp at h, Or.inr ⟨_, rfl⟩⟩
  · rename_i hw
    refine ⟨Quiet.refl s, rfl, fun _ hn hl => ?_, Or.inl rfl⟩
    left
    simpa [hn, hl] using hw

theorem trust_id (s : Session rl) (ev : Event) : (s.trust ev).id = ev.id := by
  unfold trust
  split <;> rfl

theorem trust_limited (s : Session rl) (now : Int) (ev : Event) :
    (s.limited now).2.trust ev = s.trust ev := by
  obtain ⟨_, ha, _, hauth, hpk⟩ := s.limited_quiet now
  simp only [trust, ha, hauth, hpk]

theorem sendError_outcome (quiet : Quiet s s₁) (out : s₁.out = s.out) (id text : Str) :
    Outcome s c self m onVerify noSpecialEvents (s₁.sendError id text) :=
  .rejected id text (quiet_send quiet _) (congrArg (fun o => o ++ [Reply.ok id false text]) out)

/-- The case analysis of `on_event_generic`, once for all its callers. -/
theorem onEventGeneric_outcome (s : Session rl) (c : Circumstance) (self : Nat) (m : Structured)
    (onVerify : Str → Event → Session rl → Except Exn (Session rl)) (noSpecialEvents : Bool) :
    Outcome s c self m onVerify noSpecialEvents
      (s.onEventGeneric c self m onVerify noSpecialEvents) := by
  unfold onEventGeneric
  split
  · exact sendError_outcome (Quiet.refl s) rfl _ _
  rename_i id htext
  split
  · rename_i e he
    have hp := Event.fromStructured_error he
    cases e with
    | eventParse e => exact sendError_outcome (Quiet.refl s) rfl _ _
    | badCast => exact sendError_outcome (Quiet.refl s) rfl _ _
    | duplicateKey => exact hp.elim
    | blocked text => exact hp.elim
    | invalidArgument text => exact hp.elim
  rename_i ev' hparsed
  split
  · rename_i hdup
    exact .known id ev' hparsed hdup.2 hdup.1
  rename_i hfresh
  obtain ⟨hq, happ, hout, -, -⟩ := s.limited_quiet c.now
  have htrust := s.trust_limited c.now ev'
  generalize s.limited c.now = lim at hq happ hout htrust ⊢
  obtain ⟨allowed, s₁⟩ := lim
  dsimp only at hq happ hout htrust
  cases allowed with
  | false => exact sendError_outcome hq hout _ _
  | true =>
    dsimp only
    split
    · exact sendError_outcome hq hout _ _
    rename_i hpow
    have hpow' : s.peer.noLimit = false → 0 < rl.options.pow →
        checkPow rl.options.pow id = true := by
      intro hn hp
      simpa [hq.noLimit, hn, hp] using hpow
    unfold verified
    split
    · exact sendError_outcome hq hout _ _
    rename_i hsig
    rw [htrust] at hsig ⊢
    have passed : Passed s c m noSpecialEvents id (s.trust ev') :=
      ⟨htext, ⟨ev', hparsed, rfl⟩, fun hns => Classical.not_not.mp fun hd =>
        hfresh ⟨by rwa [trust_id] at hd, hns⟩, hpow', by simpa using hsig⟩
    split
    · rename_i hkind
      cases hns : noSpecialEvents with
      | true => exact sendError_outcome hq hout _ _
      | false => exact .broadcast id _ s₁ (hns ▸ passed) hkind rfl hq
    rename_i hkind
    split
    · exact sendError_outcome hq hout _ _
    rename_i hro
    obtain ⟨hw, hwout, hinv, hthrow⟩ := s₁.whitelistCheck_spec c.mem (s.trust ev')
    generalize s₁.whitelistCheck c.mem (s.trust ev') = checked at hw hwout hinv hthrow ⊢
    obtain ⟨s₂, thrown⟩ := checked
    dsimp only at hw hwout hinv hthrow
    have hq₂ : Quiet s s₂ := hq.trans hw
    cases thrown with
    | some e =>
      obtain ⟨text, rfl⟩ : ∃ text, e = .blocked text := by simpa using hthrow
      exact sendError_outcome hq₂ (hwout.trans hout) _ _
    | none =>
      have letIn : LetIn s c (s.trust ev') :=
        ⟨hkind, fun hn => by simpa [hq.noLimit, hn] using hro,
          fun hn hl => by simpa [happ] using hinv rfl (hq.noLimit.trans hn) hl⟩
      dsimp only
      split
      · rename_i s' hdone
        exact .stored id _ s₂ passed letIn hq₂ (hwout.trans hout) hdone
      · rename_i e hthrew
        exact .refused id _ s₂ e passed letIn hq₂ (hwout.trans hout) hthrew

theorem whitelistCheck_through (s : Session rl) (mem : Memory) (ev : Event)
    (h : s.peer.noLimit = false → rl.options.whitelisting = true → ev.trusted = true ∨
      (s.app.checkWhitelist ev.author).1 = true ∨
      ((ev.kind = Kind.encryptedDirectMessages ∨ ev.kind = Kind.giftWrapEvent) ∧
        s.app.isHomeUser (fromHex mem.target (ev.getTagContent (str "p"))) = true)) :
    (s.whitelistCheck mem ev).2 = none := by
  have hhome (pk : Pubkey) :
      (s.app.checkWhitelist ev.author).2.isHomeUser pk = s.app.isHomeUser pk := by
    simp [App.isHomeUser, (s.app.same_checkWhitelist ev.author).karma]
  unfold whitelistCheck
  split
  · rename_i hw
    simp only [Bool.and_eq_true, Bool.not_eq_true'] at hw
    obtain ⟨⟨hn, hl⟩, ht⟩ := hw
    rcases h hn hl with htrusted | hin | ⟨hk, hp⟩
    · rw [ht] at htrusted
      cases htrusted
    · simp [hin]
    · by_cases hin : (s.app.checkWhitelist ev.author).1 = true
      · simp [hin]
      · simp [hin, hk, hhome, hp]
  · rfl

/-- An event that nothing holds up comes to the end of `on_event_generic`. -/
theorem onEventGeneric_through {s : Session rl} {c : Circumstance} {m : Structured}
    {id : Str} {ev : Event} (passed : Passed s c m noSpecialEvents id ev) (letIn : LetIn s c ev)
    (paced : (s.limited c.now).1 = true) (self : Nat)
    (onVerify : Str → Event → Session rl → Except Exn (Session rl)) :
    ∃ s₁, Quiet s s₁ ∧ s₁.out = s.out ∧ s.onEventGeneric c self m onVerify noSpecialEvents =
      match s₁.store c.mem self noSpecialEvents id ev onVerify with
      | .ok s' => s'
      | .error e => s₁.caught id e := by
  obtain ⟨ev', hparsed, rfl⟩ := passed.parsed
  have hfresh : ¬ (s.app.findEventById ev'.id ≠ 0 ∧ noSpecialEvents = false) := by
    intro ⟨hthere, hns⟩
    exact hthere (s.trust_id ev' ▸ passed.fresh hns)
  unfold onEventGeneric
  simp only [passed.text, hparsed, hfresh, ↓reduceIte]
  obtain ⟨hq, happ, hout, -, -⟩ := s.limited_quiet c.now
  have htrust := s.trust_limited c.now ev'
  generalize s.limited c.now = lim at hq happ hout htrust paced ⊢
  obtain ⟨allowed, s₁⟩ := lim
  dsimp only at hq happ hout htrust paced
  subst paced
  dsimp only
  have hpow : (!s₁.peer.noLimit && decide (rl.options.pow > 0) && !checkPow rl.options.pow id) =
      false := by
    cases hn : s.peer.noLimit with
    | true => simp [hq.noLimit, hn]
    | false =>
      by_cases hp : 0 < rl.options.pow
      · simp [passed.pow hn hp]
      · simp [hp]
  have hwritable : (!s₁.peer.noLimit && rl.options.readOnly) = false := by
    cases hn : s.peer.noLimit with
    | true => simp [hq.noLimit, hn]
    | false => simp [letIn.writable hn]
  rw [hpow, htrust]
  unfold verified
  simp only [passed.signed, letIn.kind, hwritable, Bool.false_eq_true, Bool.not_true, ↓reduceIte]
  have hthrough := s₁.whitelistCheck_through c.mem (s.trust ev') (by
    rw [hq.noLimit, happ]
    exact letIn.invited)
  obtain ⟨hw, hwout, -, -⟩ := s₁.whitelistCheck_spec c.mem (s.trust ev')
  generalize s₁.whitelistCheck c.mem (s.trust ev') = checked at hw hwout hthrough ⊢
  obtain ⟨s₂, thrown⟩ := checked
  dsimp only at hw hwout hthrough
  subst hthrough
  exact ⟨s₂, hq.trans hw, hwout.trans hout, rfl⟩

/-- An event that comes too soon is not looked at. -/
theorem onEventGeneric_unpaced (s : Session rl) (c : Circumstance) (self : Nat) (m : Structured)
    (onVerify : Str → Event → Session rl → Except Exn (Session rl)) (noSpecialEvents : Bool)
    (h : (s.limited c.now).1 = false) :
    Quiet s (s.onEventGeneric c self m onVerify noSpecialEvents) := by
  unfold onEventGeneric
  split
  · exact quiet_caught (Quiet.refl s) _ _
  split
  · exact quiet_caught (Quiet.refl s) _ _
  split
  · exact quiet_send (Quiet.refl s) _
  obtain ⟨hq, -⟩ := s.limited_quiet c.now
  generalize s.limited c.now = lim at hq h ⊢
  obtain ⟨allowed, s₁⟩ := lim
  dsimp only at hq h
  subst h
  exact quiet_send hq _

/-- What holds on the way through the checks of `on_event_generic`, and what holds
wherever it leaves them. -/
structure Exits (during after : Session rl → Prop) (c : Circumstance) (conn : Nat)
    (onVerify : Str → Event → Session rl → Except Exn (Session rl)) : Prop where
  limited : ∀ s, during s → during (s.limited c.now).2
  checked : ∀ s ev, during s → during (s.whitelistCheck c.mem ev).1
  published : ∀ s ev, during s → during { s with app := s.app.publishEvent ev (some conn) }
  sent : ∀ s id ok text, during s → after (s.send (.ok id ok text))
  deleted : ∀ s s' ev, during s → s.eventDeletion c.mem conn ev = .ok s' → after s'
  handled : ∀ s s' id ev, during s → onVerify id ev s = .ok s' → after s'

section
variable {during after : Session rl → Prop}
    {onVerify : Str → Event → Session rl → Except Exn (Session rl)}

theorem Exits.caught (x : Exits during after c conn onVerify) (h : during s) (id : Str) (e : Exn) :
    after (s.caught id e) := by
  cases e <;> exact x.sent s id _ _ h

theorem Exits.stored (x : Exits during after c conn onVerify) {id : Str} (h : during s)
    (hdone : s.store c.mem conn noSpecialEvents id ev onVerify = .ok s') : after s' := by
  unfold store at hdone
  split at hdone
  · split at hdone
    · cases hdone
    · exact x.deleted _ _ _ h hdone
  · exact x.handled _ _ _ _ h hdone

theorem Exits.verified (x : Exits during after c conn onVerify) (h : during s)
    (noSpecialEvents : Bool) (id : Str) (ev : Event) :
    after (s.verified c.mem conn noSpecialEvents id ev onVerify) := by
  unfold Session.verified
  split
  · exact x.sent s _ _ _ h
  split
  · split
    · exact x.sent s _ _ _ h
    · exact x.sent _ _ _ _ (x.published s ev h)
  split
  · exact x.sent s _ _ _ h
  have hw := x.checked s ev h
  generalize s.whitelistCheck c.mem ev = checked at hw ⊢
  obtain ⟨s₁, thrown⟩ := checked
  cases thrown with
  | some e => exact x.caught hw _ _
  | none =>
    dsimp only
    split
    · rename_i s' hdone
      exact x.stored hw hdone
    · exact x.caught hw _ _

/-- The rule for `on_event_generic`. -/
theorem Exits.onEventGeneric (x : Exits during after c conn onVerify) (h : during s)
    (m : Structured) (noSpecialEvents : Bool) :
    after (s.onEventGeneric c conn m onVerify noSpecialEvents) := by
  unfold Session.onEventGeneric
  split
  · exact x.caught h _ _
  split
  · exact x.caught h _ _
  split
  · exact x.sent s _ _ _ h
  have hl := x.limited s h
  generalize s.limited c.now = lim at hl ⊢
  obtain ⟨allowed, s₁⟩ := lim
  cases allowed with
  | false => exact x.sent s₁ _ _ _ hl
  | true =>
    dsimp only
    split
    · exact x.sent s₁ _ _ _ hl
    · exact x.verified hl noSpecialEvents _ _

end

theorem limited_with_out (s : Session rl) (o : List Reply) (now : Int) :
    ({ s with out := o }.limited now).1 = (s.limited now).1 := by
  unfold limited
  dsimp only
  split <;> rfl

theorem Passed.with_out {s : Session rl} {id : Str} (h : Passed s c m noSpecialEvents id ev)
    (o : List Reply) :
    Passed { s with out := o } c m noSpecialEvents id ev :=
  ⟨h.text, h.parsed, h.fresh, h.pow, h.signed⟩

theorem LetIn.with_out {s : Session rl} (h : LetIn s c ev) (o : List Reply) :
    LetIn { s with out := o } c ev :=
  ⟨h.kind, h.writable, h.invited⟩

end Session

end NostrServer
