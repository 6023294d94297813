import NostrServer.Effects

namespace NostrServer
open Docdb

variable {rl : Relay} {r : AttachmentRow}

namespace App

def TakesRow (ext : External) (mem : IndexMemory) (up : Update EventOrAttachment)
    (r : AttachmentRow) : Prop :=
  ∃ d, up.oldDoc = some d ∧ ∃ q ∈ indexAttachmentFn ext mem.attachmentErase up.oldDocId d,
    q.attId = r.attId ∧ q.event = r.event

/-- An update puts the new document's rows before those it keeps. -/
theorem attachmentsUpdate_split (ext : External) (mem : IndexMemory) (up : Update EventOrAttachment)
    (rows : List AttachmentRow) : ∃ kept : List AttachmentRow, kept.Sublist rows ∧
      (∀ r, r ∈ kept ↔ r ∈ rows ∧ ¬ TakesRow ext mem up r) ∧ attachmentsUpdate ext mem up rows =
        (match up.newDoc with
          | some d => indexAttachmentFn ext mem.attachmentInsert up.newDocId d
          | none => []) ++ kept := by
  cases ho : up.oldDoc with
  | none =>
    refine ⟨rows, List.Sublist.refl rows, fun r => by simp [TakesRow, ho], ?_⟩
    cases hn : up.newDoc <;> simp [attachmentsUpdate, ho, hn]
  | some d =>
    refine ⟨_, List.filter_sublist (p := fun r : AttachmentRow =>
      !(indexAttachmentFn ext mem.attachmentErase up.oldDocId d).any
        (fun q => q.attId == r.attId && q.event == r.event)),
      fun r => by simp [TakesRow, ho], ?_⟩
    cases hn : up.newDoc <;> simp [attachmentsUpdate, ho, hn]

theorem mem_attachmentsUpdate {ext : External} {mem : IndexMemory} {up : Update EventOrAttachment}
    {rows : List AttachmentRow} :
    r ∈ attachmentsUpdate ext mem up rows ↔
      (∃ d, up.newDoc = some d ∧ r ∈ indexAttachmentFn ext mem.attachmentInsert up.newDocId d) ∨
      (r ∈ rows ∧ ¬ TakesRow ext mem up r) := by
  obtain ⟨kept, -, hkept, he⟩ := attachmentsUpdate_split ext mem up rows
  rw [he, List.mem_append, hkept]
  cases hn : up.newDoc <;> simp

/-- Rows of attachments have no event, rows of events have the event's own number. -/
theorem mem_indexAttachmentFn {ext : External} {u : ID} {i : DocID} {d : EventOrAttachment} :
    r ∈ indexAttachmentFn ext u i d ↔
      (∃ att, d = .attachment att ∧ r = ⟨att.id, none, i⟩) ∨
      ∃ ev, d = .event ev ∧ ev.kind = Kind.fileHeader ∧
        (ev.findIndexedTag ext.hasher 102 (str "file")).isSome = true ∧
        r = ⟨fromHex u (ev.getTagContent (str "x")), some i, i⟩ := by
  cases d with
  | attachment att => simp [indexAttachmentFn]
  | event ev =>
    by_cases h : ev.kind = Kind.fileHeader ∧
      (ev.findIndexedTag ext.hasher 102 (str "file")).isSome = true
    · simp [indexAttachmentFn, h]
    · simp only [indexAttachmentFn, h, ↓reduceIte, List.not_mem_nil, reduceCtorEq,
        false_and, exists_false, EventOrAttachment.event.injEq, false_or, false_iff,
        not_exists, not_and]
      rintro _ rfl hk hf _
      exact h ⟨hk, hf⟩

def Apart (r q : AttachmentRow) : Prop := r.event = none → q.event = none → r.attId ≠ q.attId

/-- The attachments' own rows are those of the stored attachments, whose ids are the
hashes of their data. -/
structure Filed (a : App rl) : Prop where
  hashed : ∀ i att, (i, .attachment att) ∈ a.records → att.id = rl.ext.sha256 att.data
  row : ∀ r ∈ a.attachments, r.event = none → ∃ att, (r.owner, .attachment att) ∈ a.records ∧
    att.id = r.attId
  rowOf : ∀ i att, (i, .attachment att) ∈ a.records → ⟨att.id, none, i⟩ ∈ a.attachments
  apart : a.attachments.Pairwise Apart

theorem attachment_key (ext : External) (att : Attachment) :
    UniqueKey.attachments att.id ∈ uniqueKeys ext (.attachment att) := by
  simp [uniqueKeys]

/-- A hash names one attachment. -/
theorem Valid.same_attachment {a : App rl} (hv : a.Valid) {i j : DocID}
    (h : (i, .attachment att) ∈ a.records) (h' : (j, .attachment att') ∈ a.records)
    (he : att.id = att'.id) : i = j :=
  hv.unique _ h _ h' (.attachments att.id) (attachment_key _ att) (he ▸ attachment_key _ att')

theorem Wrote.filed {a a' : App rl} {old id : DocID} (w : Wrote a a' d old id) (hv : a.Valid)
    (hf : a.Filed) (hd : ∀ att, d = .attachment att → att.id = rl.ext.sha256 att.data) :
    a'.Filed := by
  obtain ⟨mem, hrows⟩ := w.attachments
  refine ⟨fun i att hi => ?_, fun r hr hn => ?_, fun i att hi => ?_, ?_⟩
  · rcases (w.mem _).mp hi with he | ⟨hi, _⟩
    · exact hd att (Prod.mk.inj he).2.symm
    · exact hf.hashed i att hi
  · rw [hrows] at hr
    rcases mem_attachmentsUpdate.mp hr with ⟨d', hd', hin⟩ | ⟨hr, hkeep⟩
    · cases hd'
      rcases mem_indexAttachmentFn.mp hin with ⟨att, rfl, rfl⟩ | ⟨ev, _, _, _, rfl⟩
      · exact ⟨att, (w.mem _).mpr (Or.inl rfl), rfl⟩
      · cases hn
    · obtain ⟨att, hatt, hid⟩ := hf.row r hr hn
      refine ⟨att, (w.mem _).mpr (Or.inr ⟨hatt, fun he => hkeep ?_⟩), hid⟩
      dsimp only at he
      refine ⟨.attachment att, find_iff.mpr (he ▸ hatt), ⟨att.id, none, old⟩, ?_, hid, hn.symm⟩
      exact mem_indexAttachmentFn.mpr (Or.inl ⟨att, rfl, rfl⟩)
  · rw [hrows]
    rcases (w.mem _).mp hi with he | ⟨hi, hne⟩
    · obtain ⟨rfl, rfl⟩ := Prod.mk.inj he
      exact mem_attachmentsUpdate.mpr
        (Or.inl ⟨_, rfl, mem_indexAttachmentFn.mpr (Or.inl ⟨att, rfl, rfl⟩)⟩)
    · refine mem_attachmentsUpdate.mpr (Or.inr ⟨hf.rowOf i att hi, ?_⟩)
      rintro ⟨d', hd', q, hq, hqid, hqev⟩
      rcases mem_indexAttachmentFn.mp hq with ⟨att', rfl, rfl⟩ | ⟨ev, _, _, _, rfl⟩
      · exact hne (hv.same_attachment hi (find_iff.mp hd') hqid.symm)
      · cases hqev
  · obtain ⟨kept, hsub, hkept, he⟩ :=
      attachmentsUpdate_split rl.ext mem ⟨some d, id, a.find old, old⟩ a.attachments
    rw [hrows, he]
    have hold := hf.apart.sublist hsub
    cases d with
    | event ev =>
      simp only [indexAttachmentFn]
      split
      · exact List.pairwise_cons.mpr ⟨fun q _ hn => (nomatch hn), hold⟩
      · exact hold
    | attachment att =>
      refine List.pairwise_cons.mpr ⟨fun q hq _ hn hid => ?_, hold⟩
      -- a row of the same id is the replaced document's, and that one is taken out
      obtain ⟨hq, hkeep⟩ := (hkept q).mp hq
      obtain ⟨att', hatt', hid'⟩ := hf.row q hq hn
      dsimp only at hid
      have hkey : UniqueKey.attachments att.id ∈ uniqueKeys rl.ext (.attachment att') := by
        rw [hid, ← hid']
        exact attachment_key _ att'
      by_cases ho : q.owner = old
      · exact hkeep ⟨.attachment att', find_iff.mpr (ho ▸ hatt'), ⟨att'.id, none, old⟩,
          mem_indexAttachmentFn.mpr (Or.inl ⟨att', rfl, rfl⟩), hid', hn.symm⟩
      · exact w.free ⟨_, attachment_key _ att, _, hatt', ho, hkey⟩

/-- Rows of events stay while their events do. -/
theorem Wrote.event_row {a a' : App rl} {old id : DocID} (w : Wrote a a' d old id) {x : ID}
    {i : DocID} (hi : i ≠ old) (hr : ⟨x, some i, i⟩ ∈ a.attachments) :
    ⟨x, some i, i⟩ ∈ a'.attachments := by
  obtain ⟨mem, hrows⟩ := w.attachments
  rw [hrows]
  refine mem_attachmentsUpdate.mpr (Or.inr ⟨hr, ?_⟩)
  rintro ⟨d', _, q, hq, _, hqev⟩
  rcases mem_indexAttachmentFn.mp hq with ⟨att', _, rfl⟩ | ⟨ev, _, _, _, rfl⟩
  · cases hqev
  · exact hi (Option.some.inj hqev).symm

theorem findAttachment_spec {a : App rl} (hf : a.Filed) (x : ID) :
    (a.findAttachment x = 0 ∧ ∀ i att, (i, .attachment att) ∈ a.records → att.id ≠ x) ∨
    ∃ att, (a.findAttachment x, .attachment att) ∈ a.records ∧ att.id = x := by
  unfold findAttachment
  split
  · rename_i r hr
    right
    have hkey := List.find?_some hr
    simp only [Bool.and_eq_true, beq_iff_eq] at hkey
    obtain ⟨att, hatt, hid⟩ := hf.row r (List.mem_of_find?_eq_some hr) hkey.2
    exact ⟨att, hatt, hid.trans hkey.1⟩
  · rename_i hnone
    left
    refine ⟨rfl, fun i att hatt hid => ?_⟩
    have := List.find?_eq_none.mp hnone _ (hf.rowOf i att hatt)
    simp [hid] at this

/-- An attachment is found exactly when one with its id is stored. -/
theorem findAttachment_eq_zero {a : App rl} (hf : a.Filed) (x : ID) :
    a.findAttachment x = 0 ↔ ∀ i att, (i, .attachment att) ∈ a.records → att.id ≠ x := by
  rcases findAttachment_spec hf x with ⟨hz, hno⟩ | ⟨att, hatt, hid⟩
  · exact ⟨fun _ => hno, fun _ => hz⟩
  · exact ⟨fun hz => absurd hz (number_pos hatt), fun hno => absurd hid (hno _ att hatt)⟩

end App

end NostrServer
