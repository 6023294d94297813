import Mathlib.Data.List.Basic
import Mathlib.Data.List.Flatten
import NostrServer.KarmaLedger
import NostrServer.Lib.Runs
import NostrServer.Reference

namespace NostrServer
open Docdb

/-- The storage, the aggregator's table, and what was recorded of every insertion:
the mentions it added and whether its author was local. -/
structure Books {ext : External} (db : EventStorage ext) where
  storage : db.State
  karma : KarmaTable := []
  added : DocID → List (Counter × Pubkey) := fun _ => []
  wasLocal : DocID → Bool := fun _ => false

inductive StorageStep where
  | put (d : EventOrAttachment) (old : DocID) (mem : IndexMemory)
  | erase (i : DocID) (mem : IndexMemory)

def StorageStep.out : StorageStep → DocID
  | .put _ old _ => old
  | .erase i _ => i

def StorageStep.memory : StorageStep → IndexMemory
  | .put _ _ mem => mem
  | .erase _ mem => mem

variable {ext : External} {db : EventStorage ext}

namespace Books

/-- The table once the old document of an update is erased. -/
def cleared (b : Books db) (x : StorageStep) : KarmaTable :=
  karmaUpdate x.memory ⟨none, 0, (db.records b.storage).find x.out, x.out⟩ b.karma

/-- One storage update; a rejected one changes nothing. -/
def step (b : Books db) (x : StorageStep) : Books db :=
  match x with
  | .put d old mem =>
    match db.put b.storage d old with
    | none => b
    | some (id, s') =>
      let there := authorLocal (b.cleared x) d
      { storage := s'
        karma := karmaUpdate mem ⟨some d, id, (db.records b.storage).find old, old⟩ b.karma
        added := fun i => if i = id then credited mem.karmaInsert there d else b.added i
        wasLocal := fun i => if i = id then there else b.wasLocal i }
  | .erase i _ => { b with storage := db.erase b.storage i, karma := b.cleared x }

def machine (db : EventStorage ext) : Machine (Books db) StorageStep where
  start := { storage := db.empty }
  step := step

abbrev run (db : EventStorage ext) (steps : List StorageStep) : Books db := (machine db).run steps

def total (b : Books db) : List (Counter × Pubkey) :=
  (db.records b.storage).flatMap (fun r => b.added r.1)

/-- Every counter is the number of those mentions. -/
def Matches (b : Books db) : Prop := ∀ pk c, (b.karma.value pk c).toNat = b.total.count (c, pk)

def decrements (b : Books db) (x : StorageStep) : List UInt32 :=
  match (db.records b.storage).find x.out with
  | some d => erasedCounters x.memory.karmaErase b.karma d
  | none => []

def Spelled (there : Bool) : EventOrAttachment → Prop
  | .event ev => ev.refLevel = 0 → (ev.kind < Kind.encryptedDirectMessages ∨ there = true) →
    counterOf ev ≠ none →
      ∀ t ∈ ev.forEachTag (str "p"), Written 32 t.content
  | .attachment _ => True

/-- The event counts its mentions, and counts them only while its author is local. -/
def CountsWhileLocal (ev : Event) : Prop :=
  ev.refLevel = 0 ∧ ¬ ev.kind < Kind.encryptedDirectMessages ∧ counterOf ev ≠ none ∧
  ev.forEachTag (str "p") ≠ []

/-- Such an event goes only if its author was already local when it came, or still is not. -/
def Settled (b : Books db) (i : DocID) : Prop :=
  ∀ ev, (i, .event ev) ∈ db.records b.storage → CountsWhileLocal ev →
    b.karma.isLocal ev.author = true → b.wasLocal i = true

/-- What an update has to meet: the author of the document it takes out has not become
local since, the keys it counts are spelled out, and the counters have room for them. -/
def Sound (b : Books db) (x : StorageStep) : Prop :=
  b.Settled x.out ∧ ∀ d old mem, x = .put d old mem → Spelled (authorLocal b.karma d) d ∧
    ∀ c pk, b.total.count (c, pk) +
      (credited mem.karmaInsert (authorLocal b.karma d) d).count (c, pk) < 2 ^ 32

structure Inv (b : Books db) : Prop where
  balance : b.Matches
  credit : ∀ r ∈ db.records b.storage, Spelled (b.wasLocal r.1) r.2 ∧ ∃ mem,
    b.added r.1 = credited mem (b.wasLocal r.1) r.2
  stays : ∀ r ∈ db.records b.storage, b.wasLocal r.1 = true → authorLocal b.karma r.2 = true

end Books

/-- Tags that spell out their keys read the same whatever the arrays held. -/
theorem credited_spelled (h : Books.Spelled l d) (mem mem' : Nat → Pubkey) :
    credited mem l d = credited mem' l d := by
  cases d with
  | attachment att => rfl
  | event ev =>
    simp only [credited]
    split
    · rename_i hin
      cases hc : counterOf ev with
      | none => rfl
      | some c =>
        have hm : mentioned mem ev = mentioned mem' ev := by
          apply List.map_congr_left
          intro t ht
          have htag : t.1 ∈ ev.forEachTag (str "p") := List.fst_mem_of_mem_zipIdx ht
          exact fromHex_written (h hin.1 hin.2 (by simp [hc]) t.1 htag) _ _
        rw [hm]
    · rfl

/-- Only for events that count while their author is local does that matter. -/
theorem credited_local {mem : Nat → Pubkey} {ev : Event} (h : ¬ Books.CountsWhileLocal ev)
    (l l' : Bool) :
    credited mem l (.event ev) = credited mem l' (.event ev) := by
  simp only [Books.CountsWhileLocal, not_and, Classical.not_not] at h
  simp only [credited]
  by_cases hr : ev.refLevel = 0
  · by_cases hk : ev.kind < Kind.encryptedDirectMessages
    · simp [hr, hk]
    · cases hc : counterOf ev with
      | none => simp
      | some c => simp [mentioned, h hr hk (by simp [hc])]
  · simp [hr]

namespace Books

/-- Erasing a settled document takes off exactly what its insertion added. -/
theorem cleared_spec (b : Books db) (hi : b.Inv) (x : StorageStep) (hs : b.Settled x.out) :
    (∀ pk c, ((b.cleared x).value pk c).toNat =
      (((db.records b.storage).filter (fun r => r.1 ≠ x.out)).flatMap
        (fun r => b.added r.1)).count (c, pk)) ∧
    (∀ pk, (b.cleared x).isLocal pk = b.karma.isLocal pk) ∧ ∀ v ∈ b.decrements x, v ≠ 0 := by
  have hsplit := (records_split (db.records b.storage) (db.ids_nodup b.storage) x.out).flatMap_right
    (fun r => b.added r.1)
  have hb : ∀ pk c, (b.karma.value pk c).toNat = _ :=
    fun pk c => (hi.balance pk c).trans (hsplit.count_eq (c, pk))
  cases hf : (db.records b.storage).find x.out with
  | none =>
    have hc : b.cleared x = b.karma := by simp [cleared, karmaUpdate, hf]
    rw [hc]
    refine ⟨fun pk c => by simpa [hf] using hb pk c, fun _ => rfl, ?_⟩
    simp [decrements, hf]
  | some d =>
    have hmem : (x.out, d) ∈ db.records b.storage := (find_eq_some (db.ids_nodup b.storage)).mp hf
    obtain ⟨hsp, mem, hadd⟩ := hi.credit _ hmem
    have hcred : b.added x.out = credited x.memory.karmaErase (authorLocal b.karma d) d := by
      rw [hadd, credited_spelled hsp mem x.memory.karmaErase]
      cases d with
      | attachment att => rfl
      | event ev =>
        by_cases hk : CountsWhileLocal ev
        · have : b.wasLocal x.out = authorLocal b.karma (.event ev) := by
            cases hl : authorLocal b.karma (.event ev) with
            | true => exact hs ev hmem hk hl
            | false =>
              cases hw : b.wasLocal x.out with
              | true => rw [hi.stays _ hmem hw] at hl; cases hl
              | false => rfl
          rw [this]
        · exact credited_local hk _ _
    have hb' : ∀ pk c, (b.karma.value pk c).toNat =
        (credited x.memory.karmaErase (authorLocal b.karma d) d).count (c, pk) +
        (((db.records b.storage).filter (fun r => r.1 ≠ x.out)).flatMap
          (fun r => b.added r.1)).count (c, pk) := by
      intro pk c
      rw [hb pk c, hf, ← hcred]
      simp
    have hc : b.cleared x = whiteListIndexFn true x.memory.karmaErase d b.karma := by
      simp [cleared, karmaUpdate, hf]
    obtain ⟨hv, hl, hnz⟩ := whiteList_erase x.memory.karmaErase d b.karma
      (fun pk c => by rw [hb' pk c]; omega)
    rw [hc]
    refine ⟨fun pk c => ?_, hl, by simpa [decrements, hf] using hnz⟩
    have h1 := hv pk c
    have h2 := hb' pk c
    omega

theorem erased_inv (b : Books db) (hi : b.Inv) (i : DocID) (mem : IndexMemory)
    (hs : b.Sound (.erase i mem)) : (b.step (.erase i mem)).Inv := by
  obtain ⟨hv, hl, -⟩ := b.cleared_spec hi _ hs.1
  have hperm := erase_perm db autocompact_compacts b.storage i
  refine ⟨fun pk c => ?_, fun r hr => ?_, fun r hr hw => ?_⟩
  · exact (hv pk c).trans ((hperm.flatMap_right (fun r => b.added r.1)).count_eq (c, pk)).symm
  · exact hi.credit r ((erase_mem db autocompact_compacts b.storage i r).mp hr).1
  · have hold := hi.stays r ((erase_mem db autocompact_compacts b.storage i r).mp hr).1 hw
    cases hd : r.2 with
    | attachment att => rw [hd] at hold; cases hold
    | event ev =>
      rw [hd] at hold
      exact (hl ev.author).trans hold

theorem put_inv (b : Books db) {id : DocID} {s' : db.State} (hi : b.Inv)
    (hs : b.Sound (.put d old mem)) (hp : db.put b.storage d old = some (id, s')) :
    (b.step (.put d old mem)).Inv := by
  obtain ⟨hv, hl, -⟩ := b.cleared_spec hi _ hs.1
  obtain ⟨hsp, hroom⟩ := hs.2 d old mem rfl
  have hthere : authorLocal (b.cleared (.put d old mem)) d = authorLocal b.karma d := by
    cases d with
    | event ev => exact hl ev.author
    | attachment att => rfl
  have hperm := put_perm db autocompact_compacts hp
  have hnew : ∀ r ∈ db.records b.storage, r.1 ≠ id := by
    intro r hr he
    have hlt := (db.put_records b.storage d old id s' hp).1
    exact Nat.lt_irrefl _ (Nat.lt_of_lt_of_le (he ▸ hlt) (db.ids_bound b.storage r hr).2)
  let rest := (db.records b.storage).filter (fun r => r.1 ≠ old)
  have hrest : rest.flatMap (fun r => if r.1 = id then credited mem.karmaInsert
      (authorLocal (b.cleared (.put d old mem)) d) d else b.added r.1) = rest.flatMap (fun r =>
        b.added r.1) := by
    apply List.flatMap_congr
    intro r hr
    rw [if_neg (hnew r (List.mem_filter.mp hr).1)]
  have hle (x : Counter × Pubkey) :
      (rest.flatMap (fun r => b.added r.1)).count x ≤ b.total.count x := by
    have hsub : rest.Sublist (db.records b.storage) := List.filter_sublist
    exact (hsub.flatMap (fun r => b.added r.1)).count_le x
  have hkarma : (b.step (.put d old mem)).karma =
      whiteListIndexFn false mem.karmaInsert d (b.cleared (.put d old mem)) := by
    simp [step, hp, cleared, karmaUpdate, StorageStep.memory, StorageStep.out]
  obtain ⟨hins, hgrow⟩ := whiteList_insert mem.karmaInsert d (b.cleared (.put d old mem))
    (fun pk c => by
    rw [hv pk c, hthere]
    exact Nat.lt_of_le_of_lt (Nat.add_le_add_right (hle (c, pk)) _) (hroom c pk))
  have hstore : (b.step (.put d old mem)).storage = s' := by simp [step, hp]
  refine ⟨fun pk c => ?_, fun r hr => ?_, fun r hr hw => ?_⟩
  · rw [hkarma, hins, hv pk c]
    have htot := (hperm.flatMap_right (fun r => (b.step (.put d old mem)).added r.1)).count_eq
      (c, pk)
    simp only [total, hstore, htot, List.flatMap_cons, List.count_append]
    simp only [step, hp, ↓reduceIte]
    rw [hrest]
    exact Nat.add_comm _ _
  · rw [hstore] at hr
    rcases (put_mem db autocompact_compacts hp r).mp hr with rfl | ⟨hr, _⟩
    · simp only [step, hp, ↓reduceIte, hthere]
      exact ⟨hsp, mem.karmaInsert, rfl⟩
    · have hne := hnew r hr
      simpa [step, hp, hne] using hi.credit r hr
  · rw [hstore] at hr
    have keep (ev : Event) (hloc : b.karma.isLocal ev.author = true) :
        (b.step (.put d old mem)).karma.isLocal ev.author = true := by
      rw [hkarma]
      exact hgrow _ ((hl _).trans hloc)
    rcases (put_mem db autocompact_compacts hp r).mp hr with rfl | ⟨hr, _⟩
    · cases d with
      | attachment att => simp [step, hp, authorLocal] at hw
      | event ev =>
        simp only [step, hp, ↓reduceIte, authorLocal] at hw
        exact keep ev ((hl _).symm.trans hw)
    · have hne := hnew r hr
      have hold := hi.stays r hr (by simpa [step, hp, hne] using hw)
      cases hd : r.2 with
      | attachment att => rw [hd] at hold; cases hold
      | event ev =>
        rw [hd] at hold
        exact keep ev hold

/-- A sound update keeps the books. -/
theorem step_inv (b : Books db) (hi : b.Inv) (x : StorageStep) (hs : b.Sound x) :
    (b.step x).Inv := by
  cases x with
  | erase i mem => exact b.erased_inv hi i mem hs
  | put d old mem =>
    cases hp : db.put b.storage d old with
    | none =>
      have : b.step (.put d old mem) = b := by simp [step, hp]
      rw [this]
      exact hi
    | some p => exact b.put_inv hi hs hp

theorem start_inv : (machine db).start.Inv := by
  refine ⟨fun pk c => ?_, fun r hr => ?_, fun r hr => ?_⟩
  · simp [machine, total, db.records_empty, KarmaTable.value]
  · simp [machine, db.records_empty] at hr
  · simp [machine, db.records_empty] at hr

theorem run_inv (h : (machine db).Throughout Sound steps) : (run db steps).Inv :=
  Machine.run_invariant start_inv (fun b x hi hx => b.step_inv hi x hx) h

/-- While every update is sound the counters match the store after every one of them,
and no counter that is decremented is zero. -/
theorem karma_matches_store (db : EventStorage ext) (steps : List StorageStep)
    (h : (machine db).Throughout Sound steps) :
    (∀ pre post, steps = pre ++ post → (run db pre).Matches) ∧
    ∀ pre x post, steps = pre ++ x :: post → ∀ v ∈ (run db pre).decrements x, v ≠ 0 := by
  have hinv (pre post : List StorageStep) (he : steps = pre ++ post) : (run db pre).Inv :=
    run_inv ((he ▸ h).leading)
  refine ⟨fun pre post he => (hinv pre post he).balance, fun pre x post he => ?_⟩
  exact ((run db pre).cleared_spec (hinv pre (x :: post) he) x (h pre x post he).1).2.2

def mentionedKey : Pubkey :=
  .ofNat 0x5cbdf0646e5db4eaa398f365f2ea7a0e3d419b7e0330e39ce92bddedcac4f9bc

def senderKey : Pubkey := .ofNat 0x2f8bde4d1a07209355b4a7250a5c5128e88b84bddc619ab7cba8d569b240efe4

def directMessage : Event := Event.parsed
  { kind := 4, createdAt := 1700000000, tags := [⟨str "p", mentionedKey.toHex, []⟩]
    id := .ofNat 0x0c687e3ed2e3c433c8453dd0815430d51a2e1c352159655f3081e613a751d0ca
    author := senderKey
    sig := .ofNat 0x130b170f4a16f27940f6a20dabff4013a3527eff9405d1ebd67c72164181c91dd353445c2951ff608007e44b8ef2a8bbe7e874f38ebf79e9a61dbd213217e6a0 }

/-- A note, which makes its author local. -/
def mention : Event := Event.parsed
  { kind := 1, createdAt := 1700000000, tags := [⟨str "p", mentionedKey.toHex, []⟩]
    id := .ofNat 0xfe397888b937ba4df8c2cfb5030f0fff254eca2d3ccadcc8e34d97fbc6c7c864
    author := senderKey
    sig := .ofNat 0x5cdc36a3461190477323c1fae5e736afe7eb57f632e5576fa7be917bd9c6df3fe901436c2ac046603598cc32c2be1e15fdfbe163c4556c1aad2bf14071319ffa }

def sampleBooks : EventStorage (tabled [] [] []) :=
  plainStorage EventOrAttachment UniqueKey (uniqueKeys _) autocompact

/-- A direct message that came before its author was local takes off, when it goes, what
it never added. -/
theorem directMessage_underflow : ¬ ∀ pre x post, [StorageStep.put (.event directMessage) 0 .zeros,
    .put (.event mention) 0 .zeros, .erase 1 .zeros] = pre ++ x :: post →
    ∀ v ∈ (run sampleBooks pre).decrements x, v ≠ 0 := by
  intro h
  have hzero : (run sampleBooks [.put (.event directMessage) 0 .zeros,
      .put (.event mention) 0 .zeros]).decrements
      (.erase 1 .zeros) = [0] := by decide +kernel
  exact h [_, _] _ [] rfl 0 (by rw [hzero]; exact List.mem_singleton_self _) rfl

/-- What a note added it takes off again. -/
theorem mention_matches :
    (run sampleBooks [.put (.event mention) 0 .zeros, .erase 1 .zeros]).Matches := by
  have hput : (machine sampleBooks).start.Sound (.put (.event mention) 0 .zeros) := by
    refine ⟨fun ev hev => (nomatch hev), ?_⟩
    rintro d old mem ⟨⟩
    refine ⟨fun _ _ _ => by decide +kernel, fun c pk => ?_⟩
    have hnone : (machine sampleBooks).start.total = [] := by decide +kernel
    have hone : (credited IndexMemory.zeros.karmaInsert
        (authorLocal (machine sampleBooks).start.karma (.event mention))
        (.event mention)).length = 1 := by decide +kernel
    have hle := List.count_le_length (a := (c, pk)) (l := credited IndexMemory.zeros.karmaInsert
      (authorLocal (machine sampleBooks).start.karma (.event mention)) (.event mention))
    rw [hnone, List.count_nil]
    omega
  have herase : (run sampleBooks [.put (.event mention) 0 .zeros]).Sound (.erase 1 .zeros) := by
    refine ⟨fun ev hev hc => ?_, fun d old mem he => (nomatch he)⟩
    have hrecords : sampleBooks.records (run sampleBooks [.put (.event mention) 0 .zeros]).storage =
        [(1, .event mention)] := by decide +kernel
    rw [hrecords] at hev
    cases List.mem_singleton.mp hev
    exact absurd (by decide +kernel : mention.kind < Kind.encryptedDirectMessages) hc.2.1
  exact (karma_matches_store sampleBooks _ ((Machine.throughout_nil.snoc hput).snoc herase)).1 _ []
    rfl

end Books

end NostrServer
