import NostrServer.Orphans
import NostrServer.Steps

namespace NostrServer
open Docdb

variable {rl : Relay}

/-- What `stop_requested` answers each time it is asked: a request is not taken back. -/
structure StopToken where
  requested : Nat → Bool
  kept : ∀ n, requested n = true → requested (n + 1) = true

namespace App

/-- The scan of `run_attachment_gc`: how often the token was asked, and `killthem`. -/
def gcScanUntil (stp : StopToken) : Nat → List AttachmentRow → List ID → Nat × List ID
  | n, [], killthem => (n, killthem)
  | n, row :: rows, killthem =>
    if stp.requested n then (n + 1, killthem)
    else if !row.state then gcScanUntil stp (n + 1) rows (row.attId :: killthem)
    else if killthem.head? = some row.attId then gcScanUntil stp (n + 1) rows killthem.tail
    else gcScanUntil stp (n + 1) rows killthem

def killUntil (stp : StopToken) (mem : IndexMemory) : Nat → List ID → App rl → App rl
  | _, [], a => a
  | n, k :: ks, a =>
    if stp.requested n then a else killUntil stp mem (n + 1) ks (a.killAttachment mem k)

/-- `App::run_attachment_gc`, and the number it returns: that of the listed, not of the
erased. -/
def runAttachmentGcUntil (a : App rl) (stp : StopToken) (mem : IndexMemory) : App rl × Nat :=
  let scan := gcScanUntil stp 0 (a.attachments.mergeSort rowLe) []
  (killUntil stp mem scan.1 scan.2.reverse a, scan.2.length)

/-- A scan that leaves the token without a request was complete. -/
theorem gcScanUntil_complete {stp : StopToken} {n : Nat} {rows : List AttachmentRow}
    {killthem : List ID} (h : stp.requested (gcScanUntil stp n rows killthem).1 = false) :
    (gcScanUntil stp n rows killthem).2 = gcScan rows killthem := by
  induction rows generalizing n killthem with
  | nil => rfl
  | cons row rows ih =>
    unfold gcScanUntil at h ⊢
    unfold gcScan
    split at h
    · rename_i hstop
      rw [stp.kept n hstop] at h
      cases h
    · rename_i hgoes
      rw [if_neg hgoes]
      split at h
      · rename_i hown
        rw [if_pos hown, if_pos hown]
        exact ih h
      · rename_i hown
        rw [if_neg hown, if_neg hown]
        split at h
        · rename_i htop
          rw [if_pos htop, if_pos htop]
          exact ih h
        · rename_i htop
          rw [if_neg htop, if_neg htop]
          exact ih h

/-- The first of the list are erased, none of it after a request. -/
theorem killUntil_prefix (stp : StopToken) (mem : IndexMemory) (n : Nat) (ks : List ID)
    (a : App rl) : ∃ killed, killed <+: ks ∧
      killUntil stp mem n ks a = killed.foldl (fun a k => a.killAttachment mem k) a ∧
      (stp.requested n = true → killed = []) ∧
      ((∀ m, stp.requested m = false) → killed = ks) := by
  induction ks generalizing n a with
  | nil => exact ⟨[], List.prefix_rfl, rfl, fun _ => rfl, fun _ => rfl⟩
  | cons k ks ih =>
    unfold killUntil
    split
    · rename_i hstop
      refine ⟨[], List.nil_prefix, rfl, fun _ => rfl, fun hnever => ?_⟩
      rw [hnever n] at hstop
      cases hstop
    · rename_i hgoes
      obtain ⟨killed, hfront, hrun, -, hall⟩ := ih (n + 1) (a.killAttachment mem k)
      refine ⟨k :: killed, List.cons_prefix_cons.mpr ⟨rfl, hfront⟩, hrun,
        fun hstop => absurd hstop hgoes, fun hnever => ?_⟩
      rw [hall hnever]

def Keyed (a : App rl) : Prop :=
  ∀ r ∈ a.attachments, ∀ i, r.event = some i → r.owner = i ∧ i ≠ 0

theorem Keyed.update {a a' : App rl} (h : a.Keyed) {mem : IndexMemory}
    {up : Update EventOrAttachment} (hid : up.newDoc ≠ none → up.newDocId ≠ 0)
    (ha : a'.attachments = attachmentsUpdate rl.ext mem up a.attachments) : a'.Keyed := by
  intro r hr i hi
  rw [ha] at hr
  rcases mem_attachmentsUpdate.mp hr with ⟨d, hd, hrow⟩ | ⟨hr, -⟩
  · rcases mem_indexAttachmentFn.mp hrow with ⟨att, -, rfl⟩ | ⟨ev, -, -, -, rfl⟩
    · cases hi
    · cases hi
      exact ⟨rfl, hid (by simp [hd])⟩
  · exact h r hr i hi

theorem Wrote.keyed {a a' : App rl} {d : EventOrAttachment} {old id : DocID}
    (w : Wrote a a' d old id) (h : a.Keyed) : a'.Keyed := by
  obtain ⟨mem, ha⟩ := w.attachments
  have hid : id ≠ 0 := number_pos ((w.mem (id, d)).mpr (Or.inl rfl))
  exact h.update (fun _ => hid) ha

/-- Erasing attachments leaves some of the rows. -/
theorem killAll_rows (mem : IndexMemory) (ks : List ID) (a : App rl) :
    (ks.foldl (fun a k => a.killAttachment mem k) a).attachments.Sublist a.attachments := by
  induction ks generalizing a with
  | nil => exact List.Sublist.refl _
  | cons k ks ih =>
    refine (ih _).trans ?_
    dsimp only [killAttachment]
    split
    · exact List.Sublist.refl _
    · obtain ⟨m, ha⟩ := (a.erase_lost mem (a.findAttachment k)).1.attachments
      obtain ⟨kept, hsub, -, he⟩ := attachmentsUpdate_split rl.ext m
        ⟨none, 0, a.find (a.findAttachment k), a.findAttachment k⟩ a.attachments
      rw [ha, he]
      exact hsub

theorem Keyed.sublist {a a' : App rl} (h : a.Keyed) (hsub : a'.attachments.Sublist a.attachments) :
    a'.Keyed := fun r hr => h r (hsub.mem hr)

def InUse (a : App rl) (k : ID) : Prop := ∃ r ∈ a.attachments, r.attId = k ∧ r.event ≠ none

/-- Of the stored attachments, those not in use are the orphans. -/
theorem orphan_iff {a : App rl} (hf : a.Filed) (h : (i, .attachment att) ∈ a.records) :
    att.id ∈ orphans (a.attachments.mergeSort rowLe) ↔ ¬ a.InUse att.id := by
  have hperm := List.mergeSort_perm a.attachments rowLe
  simp only [mem_orphans, hperm.mem_iff, InUse, AttachmentRow.state, not_exists, not_and,
    Classical.not_not, Option.isSome_eq_false_iff, Option.isNone_iff_eq_none]
  exact and_iff_right ⟨_, hf.rowOf i att h, rfl, rfl⟩

/-- What collecting some of the orphans leaves. -/
theorem Collected.mem {a a' : App rl} (c : Collected a a' killed) (r : DocID × EventOrAttachment) :
    r ∈ a'.records ↔ r ∈ a.records ∧ ∀ att, r.2 = .attachment att → att.id ∉ killed := by
  obtain ⟨i, d⟩ := r
  cases d with
  | event ev => simpa using c.events i ev
  | attachment att => simpa using c.attachments i att

/-- A complete pass leaves the attachments in use. -/
theorem runAttachmentGc_mem {a : App rl} (hv : a.Valid) (hf : a.Filed) (hk : a.Keyed)
    (mem : IndexMemory) (r : DocID × EventOrAttachment) :
    r ∈ (a.runAttachmentGc mem).records ↔
      r ∈ a.records ∧ ∀ att, r.2 = .attachment att → a.InUse att.id := by
  have hz : ∀ r ∈ a.attachments, r.event ≠ some 0 := fun r hr he => (hk r hr 0 he).2 rfl
  rw [(a.runAttachmentGc_orphans hv hf hz mem).mem]
  apply and_congr_right
  intro hr
  refine forall_congr' (fun att => forall_congr' (fun he => ?_))
  obtain ⟨i, d⟩ := r
  cases he
  rw [List.mem_reverse, orphan_iff hf hr, Classical.not_not]

/-- A pass that is asked to stop erases the first of the orphans, -/
theorem runAttachmentGcUntil_collected {a : App rl} (hv : a.Valid) (hf : a.Filed) (hk : a.Keyed)
    (stp : StopToken) (mem : IndexMemory) :
    ∃ killed, killed <+: orphans (a.attachments.mergeSort rowLe) ∧
      Collected a (a.runAttachmentGcUntil stp mem).1 killed ∧
      (a.runAttachmentGcUntil stp mem).1.attachments.Sublist a.attachments ∧
      ((∀ n, stp.requested n = false) →
        killed = orphans (a.attachments.mergeSort rowLe)) := by
  have hz : ∀ r ∈ a.attachments, r.event ≠ some 0 := fun r hr he => (hk r hr 0 he).2 rfl
  have hscan := gcScan_orphans (mergeSort_keyOrder hf.apart hz)
  unfold runAttachmentGcUntil
  dsimp only
  generalize hs : gcScanUntil stp 0 (a.attachments.mergeSort rowLe) [] = scan
  obtain ⟨killed, hfront, hrun, hstop, hall⟩ := killUntil_prefix stp mem scan.1 scan.2.reverse a
  have hlisted (hgoes : stp.requested scan.1 = false) :
      scan.2.reverse = orphans (a.attachments.mergeSort rowLe) := by
    have hcomplete := gcScanUntil_complete (hs ▸ hgoes)
    rw [hs, hscan] at hcomplete
    rw [hcomplete, List.reverse_reverse]
  refine ⟨killed, ?_, hrun ▸ collected_all mem killed a hv hf, hrun ▸ killAll_rows mem killed a,
    fun hnever => (hall hnever).trans (hlisted (hnever _))⟩
  cases hreq : stp.requested scan.1 with
  | true =>
    rw [hstop hreq]
    exact List.nil_prefix
  | false => exact hlisted hreq ▸ hfront

/-- and what is in use stays in use. -/
theorem Collected.inUse {a a' : App rl} (c : Collected a a' killed) (hk : a.Keyed)
    (hsub : a'.attachments.Sublist a.attachments) (k : ID) : a'.InUse k ↔ a.InUse k := by
  constructor
  · rintro ⟨r, hr, hid, he⟩
    exact ⟨r, hsub.mem hr, hid, he⟩
  · rintro ⟨⟨x, event, o⟩, hr, rfl, he⟩
    obtain ⟨i, rfl⟩ := Option.ne_none_iff_exists'.mp he
    have ho : o = i := (hk _ hr i rfl).1
    subst ho
    exact ⟨_, c.rows x o hr, rfl, he⟩

end App

namespace Server

theorem step_keyed (sv : Server rl) (h : sv.Regular) (hk : sv.app.Keyed) (x : Input) :
    (sv.step x).app.Keyed := by
  have hm := sv.step_moved h.valid x
  generalize sv.step x = sv' at hm ⊢
  have same (ha : sv'.app.attachments = sv.app.attachments) : sv'.app.Keyed := by
    unfold App.Keyed
    rwa [ha]
  cases hm with
  | still _ app peers => exact app ▸ hk
  | gc mem => exact hk.sublist (App.killAll_rows mem _ sv.app)
  | message conn f c p s' peer effect app peers =>
    have wrote {a : App rl} {d : EventOrAttachment} {old new : DocID} (hk : a.Keyed)
        (w : App.Wrote a s'.app d old new) : sv'.app.Keyed := app ▸ w.keyed hk
    cases effect with
    | quiet q => exact same (by rw [app, q.app.attachments]; rfl)
    | broadcast m id ev hc passed hk hs ha hpub => exact same (by rw [app, ha]; rfl)
    | awaits m id ev hc passed l hchk ha => exact same (by rw [app, ha.attachments]; rfl)
    | seen ev hpend ha => exact same (by rw [app, ha.attachments]; rfl)
    | dropped ha => exact same (by rw [app, ha.attachments]; rfl)
    | published m id ev old new hc passed l hkind hd w hpub => exact wrote hk w
    | deleted m id ev e' i new hc passed l hkind ht hid hauth w hpub => exact wrote hk w
    | reused data ev old new hfr hpend hh hatt hd w => exact wrote hk w
    | uploaded data ev old new new' a hfr hpend hh hatt hd w w' => exact wrote (w.keyed hk) w'

theorem run_keyed (inputs : List Input) : (run rl inputs).app.Keyed := by
  have h : (run rl inputs).Regular ∧ (run rl inputs).app.Keyed :=
    Machine.run_always (m := machine rl) (P := fun sv => sv.Regular ∧ sv.app.Keyed)
      ⟨start_regular rl, fun r hr => nomatch hr⟩
      (fun sv x hsv => ⟨step_regular sv hsv.1 x, step_keyed sv hsv.1 hsv.2 x⟩) inputs
  exact h.2

/-- In every reachable state, whenever a pass is asked to stop, the events and the
attachments in use stay. A complete pass after it leaves what it would have left without
it, and a pass that is not asked to stop is complete. -/
theorem interrupted_pass (inputs : List Input) (stp : StopToken) (mem mem' mem'' : IndexMemory) :
    let a := (run rl inputs).app
    let a' := (a.runAttachmentGcUntil stp mem).1
    (∀ r, r ∈ a'.records → r ∈ a.records) ∧
    (∀ i ev, (i, .event ev) ∈ a.records → (i, .event ev) ∈ a'.records) ∧
    (∀ i att, (i, .attachment att) ∈ a.records → a.InUse att.id →
      (i, .attachment att) ∈ a'.records) ∧
    (∀ r, r ∈ (a'.runAttachmentGc mem').records ↔ r ∈ (a.runAttachmentGc mem'').records) ∧
    ((∀ n, stp.requested n = false) →
      ∀ r, r ∈ a'.records ↔ r ∈ (a.runAttachmentGc mem'').records) := by
  intro a a'
  have hv : a.Valid := (run_regular inputs).valid
  have hf : a.Filed := (run_regular inputs).filed
  have hk : a.Keyed := run_keyed inputs
  obtain ⟨killed, hfront, c, hsub, hall⟩ := App.runAttachmentGcUntil_collected hv hf hk stp mem
  have hspared {i : DocID} {att : Attachment} (h : (i, .attachment att) ∈ a.records)
      (hused : a.InUse att.id) : att.id ∉ killed :=
    fun hin => (App.orphan_iff hf h).mp (hfront.subset hin) hused
  refine ⟨fun r hr => ((c.mem r).mp hr).1, fun i ev => (c.events i ev).mpr,
    fun i att h hused => (c.attachments i att).mpr ⟨h, hspared h hused⟩, fun r => ?_,
    fun hnever r => ?_⟩
  · rw [App.runAttachmentGc_mem c.valid c.filed (hk.sublist hsub) mem', c.mem,
      App.runAttachmentGc_mem hv hf hk mem'']
    simp only [c.inUse hk hsub]
    constructor
    · exact fun h => ⟨h.1.1, h.2⟩
    · rintro ⟨hr, hused⟩
      obtain ⟨i, d⟩ := r
      refine ⟨⟨hr, fun att he => ?_⟩, hused⟩
      cases he
      exact hspared hr (hused att rfl)
  · rw [c.mem, App.runAttachmentGc_mem hv hf hk mem'', hall hnever]
    apply and_congr_right
    intro hr
    refine forall_congr' (fun att => forall_congr' (fun he => ?_))
    obtain ⟨i, d⟩ := r
    cases he
    rw [App.orphan_iff hf hr, Classical.not_not]

end Server

end NostrServer
