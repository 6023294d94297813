import NostrServer.AttachmentGc

namespace NostrServer
open Docdb

variable {rl : Relay}

namespace App

/-- Rows as the keys order them: by attachment, and only the first row of an attachment
may be its own. -/
def KeyOrder (rows : List AttachmentRow) : Prop :=
  rows.Pairwise (fun r q => r.attId.bytes < q.attId.bytes ∨ r.attId = q.attId ∧ q.state = true)

def orphans (rows : List AttachmentRow) : List ID :=
  (rows.filter (fun r => !r.state && !rows.any (fun q => q.attId == r.attId && q.state))).map
    AttachmentRow.attId

theorem mem_orphans {rows : List AttachmentRow} : k ∈ orphans rows ↔
    (∃ r ∈ rows, r.attId = k ∧ r.state = false) ∧ ∀ r ∈ rows, r.attId = k → r.state = false := by
  simp only [orphans, List.mem_map, List.mem_filter, Bool.and_eq_true, Bool.not_eq_true',
    List.any_eq_false, beq_iff_eq, not_and, Bool.not_eq_true]
  constructor
  · rintro ⟨r, ⟨hr, hs, hall⟩, rfl⟩
    exact ⟨⟨r, hr, rfl, hs⟩, hall⟩
  · rintro ⟨⟨r, hr, rfl, hs⟩, hall⟩
    exact ⟨r, ⟨hr, hs, hall⟩, rfl⟩

/-- Own rows in key order are of different attachments. -/
theorem orphans_ordered {rows : List AttachmentRow} (h : KeyOrder rows) :
    (orphans rows).Pairwise (fun k k' => k.bytes < k'.bytes) := by
  unfold orphans
  rw [List.pairwise_map]
  apply (h.sublist List.filter_sublist).imp_of_mem
  intro r q _ hq hrq
  rcases hrq with hlt | ⟨-, hs⟩
  · exact hlt
  · simp [hs] at hq

/-- An attachment's own row comes when nothing is known of it, so that it is an orphan. -/
theorem orphans_own {rows : List AttachmentRow} (h : KeyOrder (rows ++ [r]))
    (hs : r.state = false) : orphans (rows ++ [r]) = orphans rows ++ [r.attId] := by
  have hnew (q : AttachmentRow) (hq : q ∈ rows) : ¬ q.attId = r.attId := by
    intro he
    rcases (List.pairwise_append.mp h).2.2 q hq r (by simp) with hlt | ⟨-, hs'⟩
    · exact List.lt_irrefl _ (he ▸ hlt)
    · simp [hs] at hs'
  have hnone : rows.any (fun q => q.attId == r.attId && q.state) = false := by
    simp only [List.any_eq_false, Bool.and_eq_true, beq_iff_eq, not_and]
    intro q hq he
    exact absurd he (hnew q hq)
  simp [orphans, List.filter_append, hs, hnone]

/-- An event's row makes its attachment no orphan. -/
theorem orphans_refers (rows : List AttachmentRow) (hs : r.state = true) :
    orphans (rows ++ [r]) = (orphans rows).filter (fun k => k != r.attId) := by
  unfold orphans
  rw [List.filter_append, List.filter_map, List.filter_filter]
  simp only [List.any_append, List.any_cons, List.any_nil, hs, Bool.or_false, Bool.and_true,
    Bool.not_true, Bool.false_and, List.filter_cons_of_neg, Bool.false_eq_true,
    not_false_eq_true, List.filter_nil, List.append_nil]
  congr 1
  apply List.filter_congr
  intro q _
  by_cases he : q.attId = r.attId
  · simp [he]
  · have hother : (q.attId != r.attId) = true := bne_iff_ne.mpr he
    have hflip : (r.attId == q.attId) = false := beq_eq_false_iff_ne.mpr (Ne.symm he)
    simp [hother, hflip]

/-- In a stack that descends from `top` or lower, `top` can only be on top. -/
theorem filter_top {st : List ID} (h : st.Pairwise (fun k k' => k'.bytes < k.bytes))
    (hle : ∀ k ∈ st, k.bytes < top.bytes ∨ k = top) :
    st.filter (fun k => k != top) = if st.head? = some top then st.tail else st := by
  have hbelow {st : List ID} (h : ∀ k ∈ st, k.bytes < top.bytes) :
      st.filter (fun k => k != top) = st := by
    apply List.filter_eq_self.mpr
    intro k hk
    have hne : k ≠ top := by
      rintro rfl
      exact List.lt_irrefl _ (h k hk)
    simpa using hne
  cases st with
  | nil => rfl
  | cons k st =>
    obtain ⟨hk, -⟩ := List.pairwise_cons.mp h
    rcases hle k List.mem_cons_self with hlt | rfl
    · have hne : k ≠ top := by
        rintro rfl
        exact List.lt_irrefl _ hlt
      have hall : ∀ k' ∈ k :: st, k'.bytes < top.bytes := by
        intro k' hk'
        rcases List.mem_cons.mp hk' with rfl | hk'
        · exact hlt
        · exact List.lt_trans (hk k' hk') hlt
      rw [hbelow hall]
      simp [hne]
    · simp [hbelow hk]

/-- After any part of the rows the list holds the orphans of that part. -/
theorem gcScan_orphans {rows : List AttachmentRow} (h : KeyOrder rows) :
    gcScan rows [] = (orphans rows).reverse := by
  induction rows using List.reverseRecOn with
  | nil => rfl
  | append_singleton rows r ih =>
    obtain ⟨hrows, -, hlast⟩ := List.pairwise_append.mp h
    rw [gcScan_append, ih hrows]
    cases hs : r.state with
    | false => simp [gcScan, hs, orphans_own h hs]
    | true =>
      have hle : ∀ k ∈ (orphans rows).reverse, k.bytes < r.attId.bytes ∨ k = r.attId := by
        intro k hk
        obtain ⟨⟨q, hq, rfl, -⟩, -⟩ := mem_orphans.mp (List.mem_reverse.mp hk)
        exact (hlast q hq r (by simp)).imp_right And.left
      have hdown := List.pairwise_reverse.mpr (orphans_ordered hrows)
      rw [orphans_refers rows hs, ← List.filter_reverse, filter_top hdown hle]
      simp [gcScan, hs]

/-- The index's rows are enumerated in key order. -/
theorem mergeSort_keyOrder {l : List AttachmentRow} (ha : l.Pairwise Apart)
    (hz : ∀ r ∈ l, r.event ≠ some 0) : KeyOrder (l.mergeSort rowLe) := by
  have hperm := List.mergeSort_perm l rowLe
  have hsorted := rowLe_ranking.sorted l
  have hapart := ha.perm hperm.symm (fun h => h.symm)
  unfold KeyOrder
  apply (hsorted.and hapart).imp_of_mem
  intro r q hr hq hrq
  obtain ⟨hle, happ⟩ := hrq
  simp only [rowLe, Bool.or_eq_true, Bool.and_eq_true, decide_eq_true_eq, beq_iff_eq] at hle
  refine hle.imp_right (fun hle => ⟨hle.1, ?_⟩)
  cases hqe : q.event with
  | some i => simp [AttachmentRow.state, hqe]
  | none =>
    cases hre : r.event with
    | none => exact absurd hle.1 (happ hre hqe)
    | some i =>
      have hi : i ≤ 0 := by simpa [hre, hqe] using hle.2
      exact absurd (hre.trans (congrArg some (Nat.le_zero.mp hi))) (hz r (hperm.mem_iff.mp hr))

/-- A complete pass over a filed index takes away its orphans and nothing else. -/
theorem runAttachmentGc_orphans (a : App rl) (hv : a.Valid) (hf : a.Filed)
    (hz : ∀ r ∈ a.attachments, r.event ≠ some 0) (mem : IndexMemory) :
    Collected a (a.runAttachmentGc mem) (orphans (a.attachments.mergeSort rowLe)).reverse := by
  have h := a.runAttachmentGc_collected hv hf mem
  rwa [gcScan_orphans (mergeSort_keyOrder hf.apart hz)] at h

/-- The scan leaves the ids that have an attachment's row and no event's row, each once
and in the order of the keys. -/
theorem gc_scan_exact (rows : List AttachmentRow) (h : KeyOrder rows) :
    (∀ k, k ∈ (gcScan rows []).reverse ↔
      (∃ r ∈ rows, r.attId = k ∧ r.state = false) ∧
        ¬ ∃ r ∈ rows, r.attId = k ∧ r.state = true) ∧
    (gcScan rows []).reverse.Pairwise (fun k k' => k.bytes < k'.bytes) := by
  rw [gcScan_orphans h, List.reverse_reverse]
  refine ⟨?_, orphans_ordered h⟩
  intro k
  rw [mem_orphans]
  apply and_congr_right
  intro _
  simp

def referredRows : List AttachmentRow :=
  [⟨Binary.replicate 32 1, none, 1⟩, ⟨Binary.replicate 32 2, some 5, 5⟩,
    ⟨Binary.replicate 32 2, some 6, 6⟩, ⟨Binary.replicate 32 3, none, 2⟩,
    ⟨Binary.replicate 32 3, some 7, 7⟩]

theorem referredRows_scanned : Binary.replicate 32 1 ∈ (gcScan referredRows []).reverse ∧
    Binary.replicate 32 3 ∉ (gcScan referredRows []).reverse := by
  have h := (gc_scan_exact referredRows (by unfold KeyOrder; decide +kernel)).1
  rw [h, h]
  decide +kernel

end App

end NostrServer
