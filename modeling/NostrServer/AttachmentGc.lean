import NostrServer.AttachmentIndex
import NostrServer.Lib.Ranking

namespace NostrServer
open Docdb

variable {rl : Relay}

namespace App

/-- Rows are ordered by the attachment, then by the event. -/
theorem rowLe_ranking : Ranking rowLe (fun r => r.attId.bytes) (fun r => r.event.getD 0) where
  iff r q := by
    have hid : r.attId = q.attId ↔ r.attId.bytes = q.attId.bytes :=
      ⟨fun h => h ▸ rfl, Binary.ext⟩
    simp [rowLe, hid]
  key_irrefl := List.lt_irrefl
  key_trans := List.lt_trans
  key_total := Std.lt_trichotomy
  rank_trans := Nat.le_trans
  rank_total := Nat.le_total

theorem gcScan_append (l l' : List AttachmentRow) (st : List ID) :
    gcScan (l ++ l') st = gcScan l' (gcScan l st) := by
  induction l generalizing st with
  | nil => rfl
  | cons r l ih =>
    simp only [List.cons_append, gcScan]
    split
    · exact ih _
    · split <;> exact ih _

/-- Only rows of attachments put anything on the list. -/
theorem mem_gcScan {k : ID} {l : List AttachmentRow} {st : List ID} (h : k ∈ gcScan l st) :
    k ∈ st ∨ ∃ r ∈ l, r.event = none ∧ r.attId = k := by
  induction l generalizing st with
  | nil => exact Or.inl h
  | cons r l ih =>
    unfold gcScan at h
    split at h
    · rename_i hs
      rcases ih h with hk | ⟨q, hq, hqk⟩
      · rcases List.mem_cons.mp hk with rfl | hk
        · exact Or.inr ⟨r, List.mem_cons_self, by simpa [AttachmentRow.state] using hs, rfl⟩
        · exact Or.inl hk
      · exact Or.inr ⟨q, List.mem_cons_of_mem _ hq, hqk⟩
    · split at h
      · rcases ih h with hk | ⟨q, hq, hqk⟩
        · exact Or.inl (List.mem_of_mem_tail hk)
        · exact Or.inr ⟨q, List.mem_cons_of_mem _ hq, hqk⟩
      · rcases ih h with hk | ⟨q, hq, hqk⟩
        · exact Or.inl hk
        · exact Or.inr ⟨q, List.mem_cons_of_mem _ hq, hqk⟩

/-- Rows of events that refer to an attachment that is not on top change nothing. -/
theorem gcScan_others {k : ID} {l : List AttachmentRow} {st : List ID}
    (h : ∀ r ∈ l, r.event ≠ none ∧ r.attId = k) (hk : k ∉ st) : gcScan l st = st := by
  induction l with
  | nil => rfl
  | cons r l ih =>
    obtain ⟨hr, hid⟩ := h r List.mem_cons_self
    have htop : st.head? ≠ some r.attId := fun ht => hk (hid ▸ List.mem_of_head? ht)
    have hs : r.state = true := by simpa [AttachmentRow.state, Option.isSome_iff_ne_none] using hr
    simp only [gcScan, hs, htop, Bool.not_true, Bool.false_eq_true, ↓reduceIte]
    exact ih (fun q hq => h q (List.mem_cons_of_mem _ hq))

/-- The first of them takes it off. -/
theorem gcScan_refers {k : ID} {l : List AttachmentRow} {st : List ID}
    (h : ∀ r ∈ l, r.event ≠ none ∧ r.attId = k) (hl : l ≠ []) (hk : k ∉ st) :
    gcScan l (k :: st) = st := by
  cases l with
  | nil => exact absurd rfl hl
  | cons r l =>
    obtain ⟨hr, hid⟩ := h r List.mem_cons_self
    have hs : r.state = true := by simpa [AttachmentRow.state, Option.isSome_iff_ne_none] using hr
    simp only [gcScan, hs, hid, Bool.not_true, Bool.false_eq_true, ↓reduceIte, List.head?_cons,
      List.tail_cons]
    exact gcScan_others (fun q hq => h q (List.mem_cons_of_mem _ hq)) hk

/-- An attachment an event refers to is not on the list. -/
theorem referred_not_killed {l : List AttachmentRow} (hs : l.Pairwise (fun r q => rowLe r q = true))
    (ha : l.Pairwise Apart) {x : ID} {i : DocID} {o : DocID} (hi : i ≠ 0)
    (hr : ⟨x, some i, o⟩ ∈ l) :
    x ∉ gcScan l [] := by
  intro hx
  rcases mem_gcScan hx with hx | ⟨q, hq, hqn, rfl⟩
  · cases hx
  obtain ⟨before, rest, rfl⟩ := List.append_of_mem hq
  obtain ⟨-, hrest, hleft⟩ := List.pairwise_append.mp hs
  obtain ⟨-, harest, haleft⟩ := List.pairwise_append.mp ha
  obtain ⟨hqs, hsrest⟩ := List.pairwise_cons.mp hrest
  obtain ⟨haq, -⟩ := List.pairwise_cons.mp harest
  -- the row that refers to the attachment comes after the attachment's own
  have hafter : (⟨q.attId, some i, o⟩ : AttachmentRow) ∈ rest := by
    rcases List.mem_append.mp hr with hr | hr
    · have := hleft _ hr q List.mem_cons_self
      simp only [rowLe, List.lt_irrefl, hqn, Option.getD_some, Option.getD_none, beq_self_eq_true,
        Bool.true_and, decide_false, Bool.false_or, decide_eq_true_eq, Nat.le_zero_eq] at this
      exact absurd this hi
    · rcases List.mem_cons.mp hr with he | hr
      · rw [← he] at hqn
        cases hqn
      · exact hr
  obtain ⟨mid, tail, rfl⟩ := List.append_of_mem hafter
  have hmid (r : AttachmentRow) (h : r ∈ mid ++ [⟨q.attId, some i, o⟩]) :
      r.event ≠ none ∧ r.attId = q.attId := by
    rcases List.mem_append.mp h with h | h
    · have hid : r.attId = q.attId := Binary.ext (rowLe_ranking.between (hqs r (by simp [h]))
        ((List.pairwise_append.mp hsrest).2.2 r h _ List.mem_cons_self) rfl)
      exact ⟨fun hn => haq r (by simp [h]) hqn hn hid.symm, hid⟩
    · simp [List.mem_singleton.mp h]
  have hbefore : q.attId ∉ gcScan before [] := by
    intro hk
    rcases mem_gcScan hk with hk | ⟨r, hr, hrn, hrk⟩
    · cases hk
    · exact haleft r hr q List.mem_cons_self hrn hqn hrk
  have hown : q.state = false := by simp [AttachmentRow.state, hqn]
  have hsplit : before ++ q :: (mid ++ ⟨q.attId, some i, o⟩ :: tail) =
      before ++ ([q] ++ ((mid ++ [⟨q.attId, some i, o⟩]) ++ tail)) := by simp
  have hpush (st : List ID) : gcScan [q] st = q.attId :: st := by simp [gcScan, hown]
  rw [hsplit, gcScan_append, gcScan_append, hpush, gcScan_append,
    gcScan_refers hmid (by simp) hbefore] at hx
  rcases mem_gcScan hx with hk | ⟨r, hr, hrn, hrk⟩
  · exact hbefore hk
  · exact haq r (by simp [hr]) hqn hrn hrk.symm

/-- What collecting the attachments of the given ids does: nothing happens to events or
their rows, and the other attachments stay. -/
structure Collected (a a' : App rl) (killed : List ID) : Prop where
  events : ∀ i ev, (i, .event ev) ∈ a'.records ↔ (i, .event ev) ∈ a.records
  attachments : ∀ i att, (i, .attachment att) ∈ a'.records ↔ (i, .attachment att) ∈ a.records ∧
    att.id ∉ killed
  rows : ∀ x i, ⟨x, some i, i⟩ ∈ a.attachments → ⟨x, some i, i⟩ ∈ a'.attachments
  published : a'.published = a.published
  valid : a'.Valid
  filed : a'.Filed

theorem killAttachment_spec (a : App rl) (hv : a.Valid) (hf : a.Filed)
    (mem : IndexMemory) (k : ID) :
    Collected a (a.killAttachment mem k) [k] := by
  unfold killAttachment
  rcases findAttachment_spec hf k with ⟨hz, hno⟩ | ⟨att, hatt, hid⟩
  · simp only [hz, ↓reduceIte]
    refine ⟨fun _ _ => Iff.rfl, fun i att => ?_, fun _ _ h => h, rfl, hv, hf⟩
    exact ⟨fun h => ⟨h, by simpa using hno i att h⟩, And.left⟩
  · simp only [number_pos hatt, ↓reduceIte]
    obtain ⟨l, hpub⟩ := a.erase_lost mem (a.findAttachment k)
    generalize a.findAttachment k = o at hatt l hpub ⊢
    have hfind : a.find o = some (.attachment att) := find_iff.mpr hatt
    obtain ⟨m, hrows⟩ := l.attachments
    have hkept (r : AttachmentRow) : r ∈ (a.erase mem o).attachments ↔
        r ∈ a.attachments ∧ ¬ (r.attId = k ∧ r.event = none) := by
      rw [hrows, mem_attachmentsUpdate]
      simp only [reduceCtorEq, false_and, exists_false, false_or, TakesRow, hfind,
        Option.some.injEq]
      refine and_congr_right (fun _ => not_congr ?_)
      constructor
      · rintro ⟨d, rfl, q, hq, h1, h2⟩
        rcases mem_indexAttachmentFn.mp hq with ⟨att', he, rfl⟩ | ⟨ev, he, _⟩
        · cases he
          exact ⟨h1.symm.trans hid, h2.symm⟩
        · cases he
      · rintro ⟨h1, h2⟩
        exact ⟨_, rfl, ⟨att.id, none, o⟩, mem_indexAttachmentFn.mpr (Or.inl ⟨att, rfl, rfl⟩),
          hid.trans h1.symm, h2.symm⟩
    have hother (i : DocID) (att' : Attachment) (h : (i, .attachment att') ∈ a.records) :
        i ≠ o ↔ att'.id ≠ k := by
      constructor
      · intro hne he
        exact hne (hv.same_attachment h hatt (he.trans hid.symm))
      · rintro hne rfl
        have := same_record a.ids_nodup h hatt rfl
        simp only [Prod.mk.injEq, EventOrAttachment.attachment.injEq, true_and] at this
        exact hne (this ▸ hid)
    refine ⟨fun i ev => ?_, fun i att' => ?_, fun x i hr => ?_, hpub, l.valid hv, ?_, ?_, ?_, ?_⟩
    · rw [l.mem]
      refine ⟨And.left, fun h => ⟨h, ?_⟩⟩
      rintro rfl
      have := same_record a.ids_nodup h hatt rfl
      simp at this
    · rw [l.mem]
      simp only [List.mem_singleton]
      exact and_congr_right (fun h => hother i att' h)
    · exact (hkept _).mpr ⟨hr, fun h => by cases h.2⟩
    · exact fun i att' h => hf.hashed i att' ((l.mem _).mp h).1
    · intro r hr hn
      obtain ⟨hr, hk⟩ := (hkept r).mp hr
      obtain ⟨att', hatt', hid'⟩ := hf.row r hr hn
      refine ⟨att', (l.mem _).mpr ⟨hatt', (hother _ att' hatt').mpr ?_⟩, hid'⟩
      intro he
      exact hk ⟨hid'.symm.trans he, hn⟩
    · intro i att' h
      obtain ⟨h, hne⟩ := (l.mem _).mp h
      exact (hkept _).mpr ⟨hf.rowOf i att' h, fun hk => (hother i att' h).mp hne hk.1⟩
    · obtain ⟨kept, hsub, -, he⟩ :=
        attachmentsUpdate_split rl.ext m ⟨none, 0, a.find o, o⟩ a.attachments
      rw [hrows, he]
      exact hf.apart.sublist hsub

theorem collected_all (mem : IndexMemory) (ks : List ID) (a : App rl) (hv : a.Valid)
    (hf : a.Filed) :
    Collected a (ks.foldl (fun a k => a.killAttachment mem k) a) ks := by
  induction ks generalizing a with
  | nil => exact ⟨fun _ _ => Iff.rfl, fun _ _ => by simp, fun _ _ h => h, rfl, hv, hf⟩
  | cons k ks ih =>
    have h₁ := a.killAttachment_spec hv hf mem k
    have h₂ := ih (a.killAttachment mem k) h₁.valid h₁.filed
    refine ⟨fun i ev => (h₂.events i ev).trans (h₁.events i ev), fun i att => ?_,
      fun x i h => h₂.rows x i (h₁.rows x i h), h₂.published.trans h₁.published, h₂.valid, h₂.filed⟩
    rw [List.foldl_cons, h₂.attachments, h₁.attachments]
    simp [and_assoc, not_or]

/-- A complete pass. -/
theorem runAttachmentGc_collected (a : App rl) (hv : a.Valid) (hf : a.Filed) (mem : IndexMemory) :
    Collected a (a.runAttachmentGc mem) (gcScan (a.attachments.mergeSort rowLe) []) := by
  have h := collected_all mem (gcScan (a.attachments.mergeSort rowLe) []).reverse a hv hf
  refine ⟨h.events, fun i att => ?_, h.rows, h.published, h.valid, h.filed⟩
  have hatt := h.attachments i att
  rwa [List.mem_reverse] at hatt

theorem Apart.symm {r q : AttachmentRow} (h : Apart r q) : Apart q r :=
  fun hq hr he => h hr hq he.symm

/-- What a stored event refers to outlives a pass. -/
theorem runAttachmentGc_keeps (a : App rl) (hv : a.Valid) (hf : a.Filed) (mem : IndexMemory)
    {x : ID} {i : DocID} (hi : i ≠ 0) (hr : ⟨x, some i, i⟩ ∈ a.attachments) (j : DocID)
    (att : Attachment) (hx : att.id = x) :
    (j, .attachment att) ∈ (a.runAttachmentGc mem).records ↔ (j, .attachment att) ∈ a.records := by
  have hperm := List.mergeSort_perm a.attachments rowLe
  rw [(a.runAttachmentGc_collected hv hf mem).attachments]
  apply and_iff_left
  rw [hx]
  exact referred_not_killed (rowLe_ranking.sorted a.attachments)
    (hf.apart.perm hperm.symm (fun h => h.symm)) hi (hperm.mem_iff.mpr hr)

end App

end NostrServer
