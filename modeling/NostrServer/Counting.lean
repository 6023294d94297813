import Mathlib.Data.Finset.Card
import Mathlib.Data.List.Count
import NostrServer.ReferenceServer

namespace NostrServer
open Docdb

variable {rl : Relay}

instance (hasher : Str → UInt64) (ev : Event) (t : UInt8)
    (x : Str) : Decidable (ev.HasTagRow hasher t x) :=
  inferInstanceAs (Decidable (∃ tg ∈ ev.tags, tg.tag = [t] ∧ hasher tg.content = hasher x))

instance (f : Filter) (ev : Event) : Decidable (f.InTime ev) :=
  inferInstanceAs (Decidable (f.since.getD 0 ≤ ev.createdAt ∧
    ev.createdAt ≤ f.untilTime.getD Int64.maxValue))

instance (hasher : Str → UInt64) (f : Filter) (ev : Event) : Decidable (f.Selects hasher ev) :=
  decidable_of_iff ((f.ids ≠ [] → ∃ a ∈ f.ids, a.cmpShorten ev.id = true) ∧
      (f.authors ≠ [] → ∃ a ∈ f.authors, a.cmpShorten ev.author = true ∧
        (a.count = 32 → f.InTime ev)) ∧
      (∀ t ∈ f.tags, ∃ x ∈ t.2, ev.HasTagRow hasher t.1 x ∧ f.InTime ev) ∧
      (f.kinds ≠ [] → ev.kind ∈ f.kinds ∧ f.InTime ev) ∧
      (f.needTime = true → (f.since.isSome || f.untilTime.isSome) = true → f.InTime ev))
    ⟨fun h => ⟨h.1, h.2.1, h.2.2.1, h.2.2.2.1, h.2.2.2.2⟩,
      fun h => ⟨h.ids, h.authors, h.tags, h.kinds, h.time⟩⟩

def selectedBy (hasher : Str → UInt64) (fs : List Filter) (ev : Event) : Bool :=
  fs.any (fun f => decide (f.Selects hasher ev))

def matchedBy (hasher : Str → UInt64) (fs : List Filter) (ev : Event) : Bool :=
  fs.any (fun f => f.test hasher ev)

theorem Filter.unrestricted_test {f : Filter} (h : f.unrestricted = true) (hasher : Str → UInt64)
    (ev : Event) :
    f.test hasher ev = true := by
  obtain ⟨_, hc⟩ := Filter.unrestricted_iff.mp h
  simp only [Filter.Conditioned, not_or, Classical.not_not, Bool.not_eq_true,
    Option.isSome_eq_false_iff, Option.isNone_iff_eq_none] at hc
  obtain ⟨hi, ha, hk, ht, hs, hu⟩ := hc
  simp [Filter.test, hi, ha, hk, ht, hs, hu]

/-- Two conditions hold as often as each other when each fails the other as often. -/
theorem countP_eq_iff (l : List α) (p q : α → Bool) :
    l.countP p = l.countP q ↔
    l.countP (fun a => p a && !q a) = l.countP (fun a => q a && !p a) := by
  have hsplit (p q : α → Bool) :
      l.countP p = l.countP (fun a => p a && q a) + l.countP (fun a => p a && !q a) := by
    induction l with
    | nil => rfl
    | cons a l ih =>
      simp only [List.countP_cons, ih]
      cases p a <;> cases q a <;> simp <;> omega
  have hcomm : (fun a => p a && q a) = fun a => q a && p a := funext fun a => Bool.and_comm _ _
  rw [hsplit p q, hsplit q p, hcomm]
  omega

def EventOrAttachment.event? : EventOrAttachment → Option Event
  | .event ev => some ev
  | .attachment _ => none

namespace App

def events (a : App rl) : List Event := a.records.filterMap (fun r => r.2.event?)

theorem mem_events {a : App rl} : ev ∈ a.events ↔ ∃ i, (i, .event ev) ∈ a.records := by
  simp only [events, List.mem_filterMap, Prod.exists]
  constructor
  · rintro ⟨i, d, hd, he⟩
    cases d with
    | event e =>
      cases he
      exact ⟨i, hd⟩
    | attachment att => cases he
  · rintro ⟨i, hi⟩
    exact ⟨i, _, hi, rfl⟩

/-- The storage holds no event twice. -/
theorem events_nodup {a : App rl} (hv : a.Valid) : a.events.Nodup := by
  have hids : a.records.Pairwise (fun r r' => r.1 ≠ r'.1) := List.pairwise_map.mp a.ids_nodup
  refine List.pairwise_filterMap.mpr (hids.imp_of_mem ?_)
  rintro ⟨i, d⟩ ⟨j, d'⟩ hd hd' hne ev he _ he' rfl
  cases d with
  | attachment att => cases he
  | event e =>
    cases d' with
    | attachment att => cases he'
    | event e' =>
      cases he
      cases he'
      exact hne (hv.same_event hd hd' rfl).1

def matching (a : App rl) (fs : List Filter) : Nat :=
  (a.events.filter (matchedBy rl.ext.hasher fs)).toFinset.card

theorem matching_eq {a : App rl} (hv : a.Valid) (fs : List Filter) :
    a.matching fs = a.events.countP (matchedBy rl.ext.hasher fs) := by
  rw [matching, List.toFinset_card_of_nodup ((events_nodup hv).filter _),
    List.countP_eq_length_filter]

/-- As many stored events are candidates without being accepted as are accepted without
being candidates; where a filter asks for nothing, nothing may be stored. -/
def CountsRight (a : App rl) (fs : List Filter) : Prop :=
  if fs.any Filter.unrestricted = true then a.events = []
  else a.events.countP (fun ev => selectedBy rl.ext.hasher fs ev &&
    !matchedBy rl.ext.hasher fs ev) =
    a.events.countP (fun ev => matchedBy rl.ext.hasher fs ev && !selectedBy rl.ext.hasher fs ev)

/-- Every candidate is counted once. -/
theorem candidates_length {a : App rl} (hv : a.Valid) {fs : List Filter}
    (hs : ∀ f ∈ fs, f.ftSearch = [] ∧ f.Conditioned) :
    (rl.engine.sets.items (rl.engine.findInIndex a.records fs)).length =
      a.events.countP (selectedBy rl.ext.hasher fs) := by
  have hlisted (i : DocID) :
      i ∈ (rl.engine.sets.items (rl.engine.findInIndex a.records fs)).map Prod.fst ↔
      i ∈ (a.records.filter (fun r => r.2.event?.any (selectedBy rl.ext.hasher fs))).map
        Prod.fst := by
    have hl : Listed (rl.engine.sets.items (rl.engine.findInIndex a.records fs)) i ↔ _ :=
      rl.engine.listed_findInIndex (a.store hv) hs
    have hi : i ∈ (rl.engine.sets.items (rl.engine.findInIndex a.records fs)).map Prod.fst ↔
        Listed (rl.engine.sets.items (rl.engine.findInIndex a.records fs)) i := by
      simp [Listed]
    rw [hi, hl]
    simp only [List.mem_map, List.mem_filter, Prod.exists, exists_and_right, exists_eq_right]
    constructor
    · rintro ⟨ev, hev, f, hf, hsel⟩
      exact ⟨_, hev, by simpa [EventOrAttachment.event?, selectedBy] using ⟨f, hf, hsel⟩⟩
    · rintro ⟨d, hd, hany⟩
      cases d with
      | event ev =>
        obtain ⟨f, hf, hsel⟩ : ∃ f ∈ fs, f.Selects rl.ext.hasher ev := by
          simpa [EventOrAttachment.event?, selectedBy] using hany
        exact ⟨ev, hd, f, hf, hsel⟩
      | attachment att => simp [EventOrAttachment.event?] at hany
  have hperm := (List.perm_ext_iff_of_nodup (rl.engine.sets.items_nodup _)
    (a.ids_nodup.sublist (List.filter_sublist.map Prod.fst))).mpr hlisted
  have hlen := hperm.length_eq
  rw [List.length_map, List.length_map] at hlen
  rw [hlen, events, List.countP_filterMap, ← List.countP_eq_length_filter]
  apply List.countP_congr
  intro r _
  cases r.2.event? <;> simp

/-- A request with a filter that asks for nothing counts nothing. -/
theorem candidates_unrestricted {a : App rl} (hv : a.Valid) {fs : List Filter}
    (h : fs.any Filter.unrestricted = true) :
    rl.engine.sets.items (rl.engine.findInIndex a.records fs) = [] := by
  have hinv : rl.engine.sets.inverted (rl.engine.findInIndex a.records fs) = true := by
    rw [Engine.findInIndex_inverted]
    exact h
  obtain ⟨f, hf, hu⟩ := List.any_eq_true.mp h
  refine List.eq_nil_iff_forall_not_mem.mpr (fun ⟨i, v⟩ hi => ?_)
  have hin : rl.engine.sets.Contains (rl.engine.findInIndex a.records fs) i :=
    (rl.engine.contains_unite).mpr ⟨f, hf, rl.engine.contains_unrestricted (a.store hv) hu⟩
  simp only [Calculator.Contains, hinv, Bool.true_eq_false, false_iff] at hin
  exact hin ⟨v, hi⟩

/-- The candidates are as many as the accepted events exactly when `CountsRight` holds. -/
theorem count_exact_iff (a : App rl) (hv : a.Valid) {fs : List Filter}
    (hs : ∀ f ∈ fs, f.ftSearch = []) :
    (rl.engine.sets.items (rl.engine.findInIndex a.records fs)).length = a.matching fs ↔
    a.CountsRight fs := by
  unfold CountsRight
  rw [App.matching_eq hv]
  split
  · rename_i h
    rw [App.candidates_unrestricted hv h]
    obtain ⟨f, hf, hu⟩ := List.any_eq_true.mp h
    have hall : matchedBy rl.ext.hasher fs = fun _ => true :=
      funext fun ev => List.any_eq_true.mpr ⟨f, hf, Filter.unrestricted_test hu _ ev⟩
    rw [hall, List.countP_true, List.length_nil, eq_comm, List.length_eq_zero_iff]
  · rename_i h
    have hconditioned : ∀ f ∈ fs, f.ftSearch = [] ∧ f.Conditioned := by
      intro f hf
      refine ⟨hs f hf, ?_⟩
      by_contra hc
      exact h (List.any_eq_true.mpr ⟨f, hf, Filter.unrestricted_iff.mpr ⟨hs f hf, hc⟩⟩)
    rw [App.candidates_length hv hconditioned]
    exact countP_eq_iff _ _ _

/-- Where no time is negative and all tags have their rows, an event that is accepted is a
candidate, and nothing can make up for a candidate that is not accepted. -/
theorem countsRight_iff {a : App rl} {fs : List Filter} (hc : ∀ f ∈ fs, f.Conditioned)
    (hclean : ∀ ev ∈ a.events, 0 ≤ ev.createdAt ∧ ev.TagsHaveRows rl.ext.hasher) :
    a.CountsRight fs ↔ ∀ ev ∈ a.events, selectedBy rl.ext.hasher fs ev = true →
    matchedBy rl.ext.hasher fs ev = true := by
  have hrestricted : ¬ fs.any Filter.unrestricted = true := by
    intro h
    obtain ⟨f, hf, hu⟩ := List.any_eq_true.mp h
    exact (Filter.unrestricted_iff.mp hu).2 (hc f hf)
  have hnone : a.events.countP (fun ev => matchedBy rl.ext.hasher fs ev &&
      !selectedBy rl.ext.hasher fs ev) = 0 := by
    apply List.countP_eq_zero.mpr
    intro ev hev hm
    simp only [Bool.and_eq_true, Bool.not_eq_true'] at hm
    obtain ⟨f, hf, ht⟩ := List.any_eq_true.mp hm.1
    obtain ⟨h0, hr⟩ := hclean ev hev
    have hsel : selectedBy rl.ext.hasher fs ev = true :=
      List.any_eq_true.mpr ⟨f, hf, decide_eq_true (((f.test_iff _ ev).mp ht).selects h0 hr)⟩
    rw [hsel] at hm
    cases hm.2
  rw [CountsRight, if_neg hrestricted, hnone, List.countP_eq_zero]
  apply forall₂_congr
  intro ev _
  cases selectedBy rl.ext.hasher fs ev <;> cases matchedBy rl.ext.hasher fs ev <;> simp

end App

/-- COUNT answers with the number of stored events that the filters accept exactly when
the candidates that are not accepted make up for the accepted ones that are no candidates:
on sound stores, when there are none of either. -/
theorem Session.on_count_exact_iff (s : Session rl) (hv : s.app.Valid) (c : Circumstance)
    (msg : Structured) (hsub : rl.ext.asString (msg.item 1) = some subid)
    (hfs : requestFilters rl.ext c.mem msg.items = some fs) (hs : ∀ f ∈ fs, f.ftSearch = []) :
    ∃ n, s.onCount c msg = some (s.send (.count subid n)) ∧
      (n = s.app.matching fs ↔ s.app.CountsRight fs) ∧
      ((∀ f ∈ fs, f.Conditioned) →
        (∀ ev ∈ s.app.events, 0 ≤ ev.createdAt ∧ ev.TagsHaveRows rl.ext.hasher) →
        (n = s.app.matching fs ↔ ∀ ev ∈ s.app.events,
          selectedBy rl.ext.hasher fs ev = true → matchedBy rl.ext.hasher fs ev = true)) := by
  have hexact := s.app.count_exact_iff hv hs
  refine ⟨(rl.engine.sets.items (rl.engine.findInIndex s.app.records fs)).length,
    by simp [onCount, hsub, hfs], hexact,
    fun hc hclean => hexact.trans (App.countsRight_iff hc hclean)⟩

def oldNote : Event := Event.parsed
  { kind := 1, createdAt := 50
    id := .ofNat 0x58858466bb55e01c50a4958a6f210051f905b5f2758a49cb46e69d74c5ac7351
    author := .ofNat 0x2f8bde4d1a07209355b4a7250a5c5128e88b84bddc619ab7cba8d569b240efe4
    sig := .ofNat 0xc38ee06435ff47add95a5b9df598b77b88a1c55892b8887586d16a110d2952455769d97755b9d3d979c366627e70be2c61d176c598f8ba47cb7da5fc44130753 }

def sinceFilter (count : Nat) (h : count ≤ 32) : Filter :=
  { authors := [.full note.author,
    ⟨fromHex (.ofNat 0) (oldNote.author.toHex.take (2 * count)), count, h⟩]
    since := some 100 }

def countMessage (count : Nat) : Structured :=
  .array [.string (str "COUNT"), .string (str "q"), .object [
    (str "authors", .array [.string note.author.toHex,
      .string (oldNote.author.toHex.take (2 * count))]),
    (str "since", .int 100)]]

def countSession : Session silentRelay := { app := appHolding note oldNote, peer := newPeer }

/-- The times are looked up for whole authors only: where the other is named by four
bytes, the old note is counted and not meant. -/
theorem old_note_counted : countSession.onCount { mem := .zeros, now := 0 } (countMessage 4) =
      some (countSession.send (.count (str "q") 2)) ∧
    Session.requestFilters silentRelay.ext .zeros (countMessage 4).items =
      some [sinceFilter 4 (by decide)] ∧
    countSession.app.matching [sinceFilter 4 (by decide)] = 1 := by
  have hfs : Session.requestFilters silentRelay.ext .zeros (countMessage 4).items =
      some [sinceFilter 4 (by decide)] := by
    decide +kernel
  have hsub : silentRelay.ext.asString ((countMessage 4).item 1) = some (str "q") := rfl
  have hcount : (silentRelay.engine.sets.items
      (silentRelay.engine.findInIndex countSession.app.records
        [sinceFilter 4 (by decide)])).length = 2 := by decide +kernel
  refine ⟨?_, hfs, by decide +kernel⟩
  simp only [Session.onCount, hsub, hfs, hcount]

/-- Named by all its bytes, it is neither. -/
theorem old_note_not_counted :
    ∃ n, countSession.onCount { mem := .zeros, now := 0 } (countMessage 32) =
      some (countSession.send (.count (str "q") n)) ∧
      n = countSession.app.matching [sinceFilter 32 (by decide)] := by
  have hvalid : countSession.app.Valid := appHolding_valid (by decide +kernel) rfl rfl
  have hsub : silentRelay.ext.asString ((countMessage 32).item 1) = some (str "q") := rfl
  have hfs : Session.requestFilters silentRelay.ext .zeros (countMessage 32).items =
      some [sinceFilter 32 (by decide)] := by
    decide +kernel
  have hright : countSession.app.CountsRight [sinceFilter 32 (by decide)] := by
    unfold App.CountsRight
    decide +kernel
  obtain ⟨n, hn, hexact, -⟩ :=
    Session.on_count_exact_iff countSession hvalid { mem := .zeros, now := 0 }
    (countMessage 32) hsub hfs (by simp [sinceFilter])
  exact ⟨n, hn, hexact.mpr hright⟩

end NostrServer
