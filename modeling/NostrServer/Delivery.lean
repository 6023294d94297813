import NostrServer.Newest
import NostrServer.Subscriptions

namespace NostrServer
open Docdb

variable {rl : Relay}

/-- An id is called back with when some subscription under it has a filter that passes. -/
theorem Peer.mem_filterEvent {p : Peer} {hasher : Str → UInt64} : subid ∈ p.filterEvent hasher doc ↔
    ∃ flts ∈ KeyedList.valuesUnder p.subscriptions subid,
      flts.any (fun f => f.test hasher doc) = true := by
  simp only [filterEvent, KeyedList.valuesUnder, List.mem_map, List.mem_filter, Prod.exists,
    decide_eq_true_eq]
  constructor
  · rintro ⟨id, flts, ⟨hin, hpasses⟩, he⟩
    exact ⟨flts, ⟨id, flts, ⟨hin, he⟩, rfl⟩, hpasses⟩
  · rintro ⟨flts, ⟨id, flts', ⟨hin, he⟩, hf⟩, hpasses⟩
    exact ⟨id, flts, ⟨hf ▸ hin, hpasses⟩, he⟩

/-- A subscription of one filter, alone under its id. -/
theorem Peer.filterEvent_single {p : Peer} {hasher : Str → UInt64} {f : Filter}
    (hp : KeyedList.valuesUnder p.subscriptions subid = [[f]]) : subid ∈ p.filterEvent hasher doc ↔
    f.test hasher doc = true := by
  rw [Peer.mem_filterEvent, hp]
  simp

theorem Filter.test_unconditioned {f : Filter} (h : ¬ f.Conditioned) (hasher : Str → UInt64)
    (doc : Event) :
    f.test hasher doc = true := by
  simp only [Filter.Conditioned, not_or, Classical.not_not, Bool.not_eq_true,
    Option.isSome_eq_false_iff, Option.isNone_iff_eq_none] at h
  obtain ⟨hids, hauthors, hkinds, htags, hsince, huntil⟩ := h
  simp [Filter.test, hids, hauthors, hkinds, htags, hsince, huntil]

theorem Filter.selects_unconditioned {f : Filter} (h : ¬ f.Conditioned) (hasher : Str → UInt64)
    (ev : Event) :
    f.Selects hasher ev := by
  simp only [Filter.Conditioned, not_or, Classical.not_not] at h
  obtain ⟨hids, hauthors, hkinds, htags, hsince, huntil⟩ := h
  exact ⟨fun hn => absurd hids hn, fun hn => absurd hauthors hn, by simp [htags],
    fun hn => absurd hkinds hn, by simp [hsince, huntil]⟩

namespace Session

/-- Without a limit, over an open stream, a request is answered with every stored event
that the indexes select and the filter passes. A filter that asks for nothing is not
answered. -/
theorem mem_storedAnswer (s : Session rl) (hv : s.app.Valid) {f : Filter} (hl : f.limit = none) :
    ev ∈ sentEvents (s.storedAnswer (fun _ => true) [f] subid).1 ↔
    ev ∈ s.app.events ∧ f.unrestricted = false ∧
      f.test rl.ext.hasher ev = true ∧ (f.ftSearch ≠ [] → f.FindsText rl.ext ev) ∧
      f.Selects rl.ext.hasher ev := by
  have hinverted : rl.engine.sets.inverted (rl.engine.findInIndex s.app.records [f]) =
      f.unrestricted := by
    rw [Engine.findInIndex_inverted]
    simp
  have hlimit : reqLimit [f] = none := by simp [reqLimit, hl]
  unfold storedAnswer
  dsimp only
  rw [hinverted]
  cases hu : f.unrestricted with
  | true => simp [sentEvents]
  | false =>
    have hlisted (i : DocID) (hev : (i, .event ev) ∈ s.app.records) :
        i ∈ (rl.engine.sort (rl.engine.sets.items
          (rl.engine.findInIndex s.app.records [f]))).map Prod.fst ↔
          (f.ftSearch ≠ [] → f.FindsText rl.ext ev) ∧ f.Selects rl.ext.hasher ev := by
      rw [← rl.engine.contains_filterSet_stored (s.app.store hv) f ((App.store_has hv).mpr hev),
        ((rl.engine.sort_perm _).map Prod.fst).mem_iff]
      have hset : rl.engine.sets.Contains (rl.engine.findInIndex s.app.records [f]) i ↔
          rl.engine.sets.Contains (rl.engine.filterSet s.app.records f) i := by
        rw [Engine.findInIndex, Engine.contains_unite]
        simp
      refine Iff.trans ?_ hset
      rw [Calculator.contains_iff_listed _ (hinverted.trans hu)]
      simp [Listed]
    simp only [Bool.false_eq_true, ↓reduceIte, hlimit, App.answer_open, upTo, App.mem_accepted,
      true_and, App.mem_events]
    constructor
    · rintro ⟨i, hi, hev, hm⟩
      exact ⟨⟨i, hev⟩, by simpa [matchedBy] using hm, (hlisted i hev).mp hi⟩
    · rintro ⟨⟨i, hev⟩, ht, hsel⟩
      exact ⟨i, (hlisted i hev).mpr hsel, hev, by simpa [matchedBy] using ht⟩

/-- Live delivery to a subscription of the filter, and the answer to a request for it, agree
on every stored event. -/
def DeliveredAlike (s : Session rl) (f : Filter) : Prop :=
  ∀ ev ∈ s.app.events, ∀ (p : Peer) (subid : Str),
  KeyedList.valuesUnder p.subscriptions subid = [[f]] →
    (subid ∈ p.filterEvent rl.ext.hasher ev ↔
      ev ∈ sentEvents (s.storedAnswer (fun _ => true) [f] subid).1)

/-- What a request for a text is answered with is what its subscription delivers live of
what the text is found in. A request for nothing in particular delivers everything live,
and is answered with nothing. -/
theorem stored_answer_delivered (s : Session rl) (hv : s.app.Valid) (f : Filter)
    (hf : f.ftSearch ≠ [] ∨ ¬ f.Conditioned) (hl : f.limit = none) (p : Peer) (subid : Str)
    (hp : KeyedList.valuesUnder p.subscriptions subid = [[f]]) (he : ev ∈ s.app.events) :
    (ev ∈ sentEvents (s.storedAnswer (fun _ => true) [f] subid).1 →
      subid ∈ p.filterEvent rl.ext.hasher ev ∧ f.ftSearch ≠ [] ∧ f.FindsText rl.ext ev) ∧
    (subid ∈ p.filterEvent rl.ext.hasher ev → f.ftSearch ≠ [] → f.FindsText rl.ext ev →
      (f.Conditioned → 0 ≤ ev.createdAt ∧ ev.TagsHaveRows rl.ext.hasher) →
      ev ∈ sentEvents (s.storedAnswer (fun _ => true) [f] subid).1) ∧
    (f.ftSearch = [] → subid ∈ p.filterEvent rl.ext.hasher ev ∧
      ev ∉ sentEvents (s.storedAnswer (fun _ => true) [f] subid).1) := by
  have hunrestricted : f.unrestricted = false ↔ f.ftSearch ≠ [] := by
    rw [← Bool.not_eq_true, Filter.unrestricted_iff]
    constructor
    · intro hno ht
      exact hno ⟨ht, hf.resolve_left (fun hn => hn ht)⟩
    · intro hn h
      exact hn h.1
  rw [s.mem_storedAnswer hv hl, Peer.filterEvent_single hp, hunrestricted]
  refine ⟨?_, ?_, ?_⟩
  · rintro ⟨_, ht, hpass, htext, _⟩
    exact ⟨hpass, ht, htext ht⟩
  · intro hpass ht htext hrows
    refine ⟨he, ht, hpass, fun _ => htext, ?_⟩
    have haccepts := (f.test_iff rl.ext.hasher ev).mp hpass
    by_cases hc : f.Conditioned
    · exact haccepts.selects (hrows hc).1 (hrows hc).2
    · exact Filter.selects_unconditioned hc _ _
  · intro ht
    exact ⟨Filter.test_unconditioned (hf.resolve_left (fun hn => hn ht)) _ _, fun h => h.2.1 ht⟩

def greeting : Event := Event.parsed
  { kind := 1, createdAt := 1700000002, content := str "hello"
    id := .ofNat 0x181ea0aa93d0539509ce008ec6e205d761afaea62511a98366411b213921a4ce
    author := note.author
    sig := .ofNat 0xab765fbe8c19987e0c582f8b3975f3c353f8b9c6a4d0ed3810924b9f2080075f773527666686f8a88e3d8e5b5fd68d2f2f886d86b7c5e6bfbec1a4d8ecc26142 }

def listening (f : Filter) : Session silentRelay :=
  { peer := { newPeer with subscriptions := [(str "q", [f])] }, app := appHolding note greeting }

theorem listening_valid (f : Filter) : (listening f).app.Valid :=
  appHolding_valid (by decide +kernel) note.parsed_indexed greeting.parsed_indexed

/-- The empty note is delivered live for everything and for a text, and sent from the
storage for neither. -/
theorem empty_note_not_alike : ¬ (listening {}).DeliveredAlike {} ∧
    ¬ (listening { ftSearch := str "hello" }).DeliveredAlike { ftSearch := str "hello" } := by
  have hstored (f : Filter) : note ∈ (listening f).app.events :=
    App.mem_events.mpr ⟨1, List.mem_cons_self⟩
  have hlive (f : Filter) (hc : ¬ f.Conditioned) :
      str "q" ∈ (listening f).peer.filterEvent silentRelay.ext.hasher note :=
    (Peer.filterEvent_single (p := (listening f).peer) rfl).mpr (Filter.test_unconditioned hc _ _)
  constructor
  · intro h
    have hsent := (h note (hstored _) (listening _).peer (str "q") rfl).mp (hlive _ (by decide))
    exact absurd (((listening {}).mem_storedAnswer (listening_valid _) rfl).mp hsent).2.1
      (by decide)
  · intro h
    have hsent := (h note (hstored _) (listening _).peer (str "q") rfl).mp (hlive _ (by decide))
    obtain ⟨tk, _, row, hrow, _⟩ :=
      (((listening _).mem_storedAnswer (listening_valid _) rfl).mp hsent).2.2.2.1 (by decide)
    have hrows : indexForFulltextFn silentRelay.ext (.event note) = [] := by
      have hnone : tokenizeText silentRelay.ext note.content = [] := tokenizeText_blank rfl
      have htags : note.tags = [] := rfl
      simp [indexForFulltextFn, hnone, htags]
    rw [hrows] at hrow
    cases hrow

/-- A search for the start of a word sends the note from the storage. -/
theorem greeting_found : greeting ∈ sentEvents
    ((listening { ftSearch := str "hel" }).storedAnswer (fun _ => true)
      [{ ftSearch := str "hel" }] (str "q")).1 := by
  have hstored : greeting ∈ (listening { ftSearch := str "hel" }).app.events :=
    App.mem_events.mpr ⟨2, List.mem_cons_of_mem _ (List.mem_singleton_self _)⟩
  have hfound : Filter.FindsText silentRelay.ext { ftSearch := str "hel" } greeting := by
    have hsearch : tokenizeText silentRelay.ext (str "hel") = [(str "hel", 1)] :=
      tokenizeText_single (by decide +kernel)
    have hcontent : tokenizeText silentRelay.ext greeting.content = [(str "hello", 1)] :=
      tokenizeText_single (by decide +kernel)
    have hkind : greeting.kind = Kind.shortTextNote := rfl
    refine ⟨(str "hel", 1), by simp [hsearch], (str "hello", 1),
      List.mem_append_left _ ?_, by decide +kernel⟩
    simp only [hkind, hcontent, true_or, or_true, ↓reduceIte]
    decide +kernel
  have hlive : str "q" ∈ (listening { ftSearch := str "hel" }).peer.filterEvent
    silentRelay.ext.hasher greeting :=
    (Peer.filterEvent_single rfl).mpr (Filter.test_unconditioned (by decide) _ _)
  exact (stored_answer_delivered (listening { ftSearch := str "hel" }) (listening_valid _) _
    (Or.inl (by decide)) rfl
    (listening { ftSearch := str "hel" }).peer (str "q") rfl hstored).2.1 hlive (by decide) hfound
    (fun h => absurd h (by decide))

end Session

end NostrServer
