import NostrServer.AttachmentRuns
import NostrServer.Removal
import NostrServer.Uploads

namespace NostrServer
open Docdb

variable {rl : Relay}

def Sent (inputs : List Input) (data : Str) : Prop :=
  ∃ conn c, .frame conn (.binary data) c ∈ inputs

/-- SHA-256 tells what was sent apart. -/
def ToldApart (rl : Relay) (inputs : List Input) : Prop :=
  ∀ d d', Sent inputs d → Sent inputs d' → rl.ext.sha256 d = rl.ext.sha256 d' → d = d'

namespace App

/-- The data the event was uploaded with is stored. -/
def BackedBy (sent : Str → Prop) (a : App rl) (ev : Event) : Prop :=
  ∃ d u, sent d ∧ Session.announcedSize ev = d.length ∧
    rl.ext.sha256 d = fromHex u (ev.getTagContent (str "x")) ∧
    ∃ j att, (j, .attachment att) ∈ a.records ∧ att.id = rl.ext.sha256 d

/-- Attachments are what was sent, and every event with binary data was uploaded with it. -/
structure Backed (sent : Str → Prop) (a : App rl) : Prop where
  attachments : ∀ j att, (j, .attachment att) ∈ a.records → sent att.data
  events : ∀ i ev, (i, .event ev) ∈ a.records → ev.nip97 = true → a.BackedBy sent ev

theorem BackedBy.kept {a a' : App rl} (h : a.BackedBy sent ev)
    (hatt : ∀ j att, (j, .attachment att) ∈ a.records → (j, .attachment att) ∈ a'.records) :
    a'.BackedBy sent ev := by
  obtain ⟨d, u, hd, hsize, hhash, j, att, hj, hid⟩ := h
  exact ⟨d, u, hd, hsize, hhash, j, att, hatt j att hj, hid⟩

theorem Backed.mono {a : App rl} (h : a.Backed sent) (hs : ∀ d, sent d → sent' d) :
    a.Backed sent' := by
  refine ⟨fun j att hj => hs _ (h.attachments j att hj), fun i ev hi hn => ?_⟩
  obtain ⟨d, u, hd, hrest⟩ := h.events i ev hi hn
  exact ⟨d, u, hs d hd, hrest⟩

theorem Backed.same {a b : App rl} (h : b.Backed sent) (hr : a.records = b.records) :
    a.Backed sent := by
  refine ⟨fun j att hj => h.attachments j att (hr ▸ hj), fun i ev hi hn => ?_⟩
  exact (h.events i ev (hr ▸ hi) hn).kept (fun j att hj => hr ▸ hj)

/-- An event came in that has no binary data, or has it stored. -/
theorem Wrote.backed {a a' : App rl} {ev : Event} {old new : DocID}
    (w : Wrote a a' (.event ev) old new) (h : a.Backed sent)
    (hold : ∀ att, (old, .attachment att) ∉ a.records)
    (hnew : ev.nip97 = true → a.BackedBy sent ev) : a'.Backed sent := by
  have hatt (j : DocID) (att : Attachment) (hj : (j, .attachment att) ∈ a.records) :
      (j, .attachment att) ∈ a'.records := by
    refine (w.mem _).mpr (Or.inr ⟨hj, ?_⟩)
    rintro rfl
    exact hold att hj
  refine ⟨fun j att hj => ?_, fun i e hi hn => ?_⟩
  · rcases (w.mem _).mp hj with he | ⟨hj, _⟩
    · cases he
    · exact h.attachments j att hj
  · rcases (w.mem _).mp hi with he | ⟨hi, _⟩
    · cases he
      exact (hnew hn).kept hatt
    · exact (h.events i e hi hn).kept hatt

end App

namespace Session

theorem Received.backed {s s' : Session rl} (h : Received s c data ev s') (hf : s.app.Filed)
    (hb : s.app.Backed sent) (hsent : sent data) : s'.app.Backed sent := by
  have zero {a : App rl} (att : Attachment) :
      ((0 : DocID), EventOrAttachment.attachment att) ∉ a.records :=
    fun h => App.number_pos h rfl
  cases h with
  | refused text app => exact app ▸ hb
  | duplicate fits known app => exact app ▸ hb
  | reused new fits unknown there w =>
    apply w.backed hb zero
    intro _
    rcases App.findAttachment_spec hf (rl.ext.sha256 data) with ⟨hz, _⟩ | ⟨att, hatt, hid⟩
    · exact absurd hz there
    · exact ⟨data, _, hsent, fits.size, fits.hash, _, att, hatt, hid⟩
  | uploaded a new new' fits unknown missing w w' =>
    have hstored : (new', EventOrAttachment.attachment ⟨rl.ext.sha256 data, data⟩) ∈
        s'.app.records :=
      (w'.mem _).mpr (Or.inl rfl)
    have hatt (j : DocID) (att : Attachment) (hj : (j, .attachment att) ∈ s.app.records) :
        (j, .attachment att) ∈ s'.app.records :=
      (w'.mem _).mpr (Or.inr ⟨(w.mem _).mpr (Or.inr ⟨hj, App.number_pos hj⟩), App.number_pos hj⟩)
    refine ⟨fun j att hj => ?_, fun i e hi hn => ?_⟩
    · rcases (w'.mem _).mp hj with he | ⟨hj, _⟩
      · cases he
        exact hsent
      · rcases (w.mem _).mp hj with he | ⟨hj, _⟩
        · cases he
        · exact hb.attachments j att hj
    · rcases (w'.mem _).mp hi with he | ⟨hi, _⟩
      · cases he
      · rcases (w.mem _).mp hi with he | ⟨hi, _⟩
        · cases he
          exact ⟨data, _, hsent, fits.size, fits.hash, new', _, hstored, rfl⟩
        · exact (hb.events i e hi hn).kept hatt

/-- Text messages store no events with binary data and no attachments. -/
theorem Effect.backed {s s' : Session rl} (h : Effect s conn f c s') (hf : ∀ data, f ≠ .binary data)
    (hb : s.app.Backed sent) : s'.app.Backed sent := by
  have plain {ev : Event} (hn : ev.nip97 = false) : ev.nip97 = true → s.app.BackedBy sent ev := by
    intro ht
    rw [hn] at ht
    cases ht
  cases h with
  | quiet q => exact hb.same q.app.records
  | broadcast m id ev hc passed hk hstorage => exact hb.same (by simp [App.records, hstorage])
  | published m id ev old new hc passed l hk hd w =>
    exact w.backed hb (App.docToReplace_not_attachment hd) (plain passed.plain)
  | deleted m id ev e i new hc passed l hk hi hid hauth w =>
    refine w.backed hb (fun att hatt => ?_) (plain passed.plain)
    cases same_record s.app.ids_nodup hi hatt rfl
  | awaits m id ev hc passed l hchk ha => exact hb.same ha.records
  | seen ev hpend ha => exact hb.same ha.records
  | dropped ha => exact hb.same ha.records
  | reused data ev old new hfr => exact absurd hfr (hf data)
  | uploaded data ev old new new' a hfr => exact absurd hfr (hf data)

/-- What is sent for an event that was uploaded in full. -/
theorem retrievable_backed {s : Session rl} (hv : s.app.Valid) (hf : s.app.Filed)
    (hb : s.app.Backed sent)
    (hapart : ∀ d d', sent d → sent d' → rl.ext.sha256 d = rl.ext.sha256 d' → d = d')
    (hi : (i, .event ev) ∈ s.app.records) (hn : ev.nip97 = true)
    (hx : Written 32 (ev.getTagContent (str "x"))) (mem : Memory) {text : Str}
    (ht : Spells text ev.id) : ∃ att, s.retrievable mem text = some att ∧
      Names (ev.getTagContent (str "x")) (rl.ext.sha256 att.data) ∧
      announcedSize ev = att.data.length := by
  obtain ⟨d, u, hd, hsize, hhash, j, att, hj, hid⟩ := hb.events i ev hi hn
  have hdata : att.data = d :=
    hapart _ _ (hb.attachments j att hj) hd ((hf.hashed j att hj).symm.trans hid)
  have hnames : Names (ev.getTagContent (str "x")) att.id :=
    ⟨hx, fun u' => (fromHex_written hx u' u).trans (hhash.symm.trans hid.symm)⟩
  refine ⟨att, ?_, by rw [hdata, ← hid]; exact hnames, by rw [hdata]; exact hsize⟩
  have hev : s.app.find (s.app.findEventById (fromHex mem.retrieved text)) = some (.event ev) := by
    rw [ht.names.2]
    rcases s.app.findEventById_spec ev.id with ⟨_, hno⟩ | ⟨e, he, heid⟩
    · exact absurd rfl (hno i ev hi)
    · obtain ⟨-, rfl⟩ := hv.same_event he hi heid
      exact App.find_iff.mpr he
  have hatt : s.app.find (s.app.findAttachment
      (fromHex mem.attachment (ev.getTagContent (str "x")))) =
      some (.attachment att) := by
    rw [hnames.2]
    rcases App.findAttachment_spec hf att.id with ⟨_, hno⟩ | ⟨att', he, heid⟩
    · exact absurd rfl (hno j att hj)
    · rw [hv.same_attachment he hj heid]
      exact App.find_iff.mpr hj
  simp [retrievable, hev, hn, hatt]

/-- Only events with binary data are answered with any. -/
theorem retrievable_some {s : Session rl} (hv : s.app.Valid)
    (hi : (i, .event ev) ∈ s.app.records) {text : Str} (ht : Spells text ev.id)
    (h : s.retrievable mem text = some att) : ev.nip97 = true := by
  unfold retrievable at h
  split at h
  · rename_i e he
    rw [ht.names.2] at he
    rcases s.app.findEventById_spec ev.id with ⟨_, hno⟩ | ⟨e', he', hid⟩
    · exact absurd rfl (hno i ev hi)
    · cases same_record s.app.ids_nodup he' (App.find_iff.mp he) rfl
      obtain ⟨-, rfl⟩ := hv.same_event he' hi hid
      split at h
      · assumption
      · cases h
  · cases h

end Session

namespace Server

/-- Whoever asks for the event is sent binary data that its tags describe. -/
def Retrieves (sv : Server rl) (ev : Event) : Prop :=
  ∀ p c msg text, rl.ext.asString (msg.item 1) = some text → Spells text ev.id → ∃ d,
    (sv.session p).onRetrieve c msg =
      some (((sv.session p).send (.ok text true [])).send (.binary d)) ∧
    Names (ev.getTagContent (str "x")) (rl.ext.sha256 d) ∧ Session.announcedSize ev = d.length

theorem start_backed (rl : Relay) : (start rl).app.Backed (Sent []) := by
  have hr : (start rl).app.records = [] := rl.db.records_empty
  refine ⟨fun j att hj => ?_, fun i ev hi => ?_⟩
  · rw [hr] at hj
    cases hj
  · rw [hr] at hi
    cases hi

theorem step_backed {sent : Str → Prop} (sv : Server rl) (h : sv.Regular) (hb : sv.app.Backed sent)
    (x : Input) (hx : ∀ mem, x ≠ .gc mem)
    (hsent : ∀ conn data c, x = .frame conn (.binary data) c → sent data) :
    (sv.step x).app.Backed sent := by
  cases x with
  | connect conn authPubkey nonce =>
    dsimp only [step]
    split <;> exact hb
  | gc mem => exact absurd rfl (hx mem)
  | frame conn f c =>
    cases hp : sv.peers conn with
    | none => simpa [step, hp] using hb
    | some p =>
      rw [sv.step_app hp]
      by_cases hf : ∀ data, f ≠ .binary data
      · exact ((sv.session p).handle_effect h.valid conn f c).backed hf hb
      · obtain ⟨data, hf⟩ := Classical.not_forall.mp hf
        obtain rfl := Classical.not_not.mp hf
        cases hpend : p.fileEvent with
        | none =>
          simp only [Session.handle]
          rw [Session.processBinaryMessage_unwanted hpend]
          exact hb
        | some ev =>
          exact ((sv.session p).processBinaryMessage_received c data hpend
            (h.pending conn p hp ev hpend).2).backed
            h.filed hb (hsent conn data c rfl)

/-- In a run without the collector attachments are what was sent, and uploads are backed. -/
theorem run_backed (inputs : List Input) (h : ∀ x ∈ inputs, ∀ mem, x ≠ .gc mem) :
    (run rl inputs).app.Backed (Sent inputs) := by
  have hrun : (machine rl).Throughout (fun _ x => ∀ mem, x ≠ .gc mem) inputs := fun pre x post he =>
    h x (by simp [he])
  refine Machine.run_induction (P := fun inputs => (run rl inputs).app.Backed (Sent inputs))
    (start_backed rl)
    (fun pre x hp hx => ?_) hrun
  have hmono (d : Str) (hd : Sent pre d) : Sent (pre ++ [x]) d := by
    obtain ⟨conn, c, hin⟩ := hd
    exact ⟨conn, c, List.mem_append_left _ hin⟩
  rw [run_step]
  refine step_backed _ (run_regular pre) (hp.mono hmono) x hx (fun conn data c he => ⟨conn, c, ?_⟩)
  rw [he]
  exact List.mem_append_right _ (List.mem_singleton_self _)

/-- What will be looked up under the id was uploaded, not just published, and its hash
writes every byte: the stored event, or else the one that is waited for. -/
def UploadedInFull (sv : Server rl) (p : Peer) (id : ID) : Prop :=
  (∀ ev, sv.Holds ev → ev.id = id → ev.nip97 = true ∧ Written 32 (ev.getTagContent (str "x"))) ∧
  ((∀ ev, sv.Holds ev → ev.id ≠ id) → ∀ ev, p.fileEvent = some ev →
    Written 32 (ev.getTagContent (str "x")))

/-- After an upload that was acknowledged the event is stored, as it was before or as
it was waited for. -/
theorem acknowledged_stored (sv : Server rl) (h : sv.Regular) (hp : sv.peers conn = some p)
    {id : ID} {text : Str}
    (hok : .ok id.toHex true text ∈ ((sv.session p).handle conn (.binary data) c).1.out) :
    ((∃ ev, sv.Holds ev ∧ ev.id = id) ∧ (sv.step (.frame conn (.binary data) c)).app = sv.app) ∨
    ∃ ev, p.fileEvent = some ev ∧ ev.id = id ∧ (∀ e, sv.Holds e → e.id ≠ id) ∧
      (sv.step (.frame conn (.binary data) c)).Holds { ev with nip97 := true } := by
  unfold Holds
  rw [sv.step_app hp]
  cases hpend : p.fileEvent with
  | none =>
    simp only [Session.handle] at hok
    rw [Session.processBinaryMessage_unwanted hpend] at hok
    simp [Session.sendNotice, Session.send, session] at hok
  | some ev =>
    have hrec := (sv.session p).processBinaryMessage_received c data hpend
      (h.pending conn p hp ev hpend).2
    dsimp only [Session.handle] at hok ⊢
    generalize (sv.session p).processBinaryMessage c.mem data = r at hrec hok ⊢
    have named {t : Str} (out : r.1.out = (sv.session p).out ++ [.ok ev.id.toHex true t]) :
        ev.id = id := by
      rw [out] at hok
      simp only [session, List.nil_append, List.mem_singleton, Reply.ok.injEq] at hok
      exact (Binary.toHex_injective hok.1).symm
    have unknown (hz : (sv.session p).app.findEventById ev.id = 0) (hid : ev.id = id) (e : Event)
        (he : ∃ i, (i, .event e) ∈ sv.app.records) : e.id ≠ id := by
      obtain ⟨i, hi⟩ := he
      exact hid ▸ (sv.app.findEventById_eq_zero _).mp hz i e hi
    cases hrec with
    | refused text app out =>
      rw [out] at hok
      simp [session] at hok
    | duplicate fits known app out =>
      have hid := named out
      rcases sv.app.findEventById_spec ev.id with ⟨hz, _⟩ | ⟨e, he, heid⟩
      · exact absurd hz known
      · exact Or.inl ⟨⟨e, ⟨_, he⟩, heid.trans hid⟩, app⟩
    | reused new fits hz there w out =>
      exact Or.inr ⟨ev, rfl, named out, unknown hz (named out), new, (w.mem _).mpr (Or.inl rfl)⟩
    | uploaded a new new' fits hz missing w w' out =>
      have hin : (new, EventOrAttachment.event { ev with nip97 := true }) ∈ a.records :=
        (w.mem _).mpr (Or.inl rfl)
      exact Or.inr ⟨ev, rfl, named out, unknown hz (named out), new,
        (w'.mem _).mpr (Or.inr ⟨hin, App.number_pos hin⟩)⟩

/-- What is retrieved was stored with binary data, and names it. -/
theorem Retrieves.names {sv : Server rl} (h : sv.Retrieves ev) (hv : sv.app.Valid)
    (hi : sv.Holds ev) (c : Circumstance) :
    ev.nip97 = true ∧ Written 32 (ev.getTagContent (str "x")) := by
  obtain ⟨i, hi⟩ := hi
  have hspells : Spells ev.id.toHex ev.id := ev.id.spells_toHex
  obtain ⟨d, hd, hnames, -⟩ :=
    h { authPubkey := ev.author, authNonce := [] } c (.array [.null, .string ev.id.toHex])
    ev.id.toHex (rl.ext.asString_string _) hspells
  refine ⟨?_, hnames.1⟩
  unfold Session.onRetrieve at hd
  rw [show (Structured.array [.null, .string ev.id.toHex]).item 1 = .string ev.id.toHex from rfl,
    rl.ext.asString_string, Option.map_some, Option.some.injEq] at hd
  cases hret : (sv.session { authPubkey := ev.author, authNonce := [] }).retrievable c.mem
    ev.id.toHex with
  | some att => exact Session.retrievable_some hv hi hspells hret
  | none =>
    rw [hret] at hd
    have hout := congrArg Session.out hd
    simp [Session.send, session] at hout

/-- An upload that was acknowledged can be retrieved exactly when what is looked up under
its id was uploaded, and names its data in full. -/
theorem acknowledged_retrievable_iff (inputs : List Input) (hgc : ∀ x ∈ inputs, ∀ mem, x ≠ .gc mem)
    (hapart : ToldApart rl (inputs ++ [.frame conn (.binary data) c]))
    (hp : (run rl inputs).peers conn = some p) {id : ID} {text : Str}
    (hok : .ok id.toHex true text ∈
      (((run rl inputs).session p).handle conn (.binary data) c).1.out) :
    (∃ ev, (run rl (inputs ++ [.frame conn (.binary data) c])).Holds ev ∧ ev.id = id ∧
      (run rl (inputs ++ [.frame conn (.binary data) c])).Retrieves ev) ↔
        (run rl inputs).UploadedInFull p id := by
  have hr : (run rl inputs).Regular := run_regular inputs
  have hr' : (run rl (inputs ++ [.frame conn (.binary data) c])).Regular := run_regular _
  have hb : (run rl (inputs ++ [.frame conn (.binary data) c])).app.Backed
      (Sent (inputs ++ [.frame conn (.binary data) c])) := by
    apply run_backed _
    intro x hx mem
    rcases List.mem_append.mp hx with hx | hx
    · exact hgc x hx mem
    · rw [List.mem_singleton.mp hx]
      exact nofun
  have hstored := acknowledged_stored (run rl inputs) hr hp hok
  rw [← run_step] at hstored
  generalize run rl (inputs ++ [.frame conn (.binary data) c]) = sv' at hr' hb hstored ⊢
  generalize run rl inputs = sv at hr hp hstored ⊢
  have retrieves {ev : Event} (he : sv'.Holds ev) (hn : ev.nip97 = true)
      (hx : Written 32 (ev.getTagContent (str "x"))) :
      sv'.Retrieves ev := by
    obtain ⟨i, hi⟩ := he
    intro p c msg text hmsg ht
    obtain ⟨att, hret, hnames, hsize⟩ :=
      Session.retrievable_backed (s := sv'.session p) hr'.valid hr'.filed hb hapart hi
      hn hx c.mem ht
    exact ⟨att.data, by simp [Session.onRetrieve, hmsg, hret], hnames, hsize⟩
  constructor
  · intro ⟨ev, he, hid, hret⟩
    obtain ⟨hn, hx⟩ := hret.names hr'.valid he c
    rcases hstored with ⟨⟨e, hold, heid⟩, happ⟩ | ⟨e, hpend, heid, hno, hin⟩
    · refine ⟨fun e' he' heid' => ?_, fun hno => absurd heid (hno e hold)⟩
      obtain ⟨i, hi⟩ := he
      obtain ⟨j, hj⟩ := he'
      rw [happ] at hi
      obtain ⟨-, rfl⟩ := hr.valid.same_event hi hj (hid.trans heid'.symm)
      exact ⟨hn, hx⟩
    · refine ⟨fun e' he' heid' => absurd heid' (hno e' he'), fun _ e' hpend' => ?_⟩
      cases hpend.symm.trans hpend'
      obtain ⟨i, hi⟩ := he
      obtain ⟨j, hj⟩ := hin
      obtain ⟨-, rfl⟩ := hr'.valid.same_event hi hj (hid.trans heid.symm)
      exact hx
  · intro ⟨hknown, hnew⟩
    rcases hstored with ⟨⟨e, hold, heid⟩, happ⟩ | ⟨e, hpend, heid, hno, hin⟩
    · obtain ⟨hn, hx⟩ := hknown e hold heid
      have hin : sv'.Holds e := by
        unfold Holds
        rwa [happ]
      exact ⟨e, hin, heid, retrieves hin hn hx⟩
    · exact ⟨_, hin, heid, retrieves hin rfl (hnew hno e hpend)⟩

def seenRelay : Relay :=
  plainRelay (tabled [(namedText, namedFile.id), (fileData, fileHash)]
    [(namedFile.id, namedFile.author, namedFile.sig)]
    [namedFile.command "EVENT" namedFile.id.toHex, namedMessage]) {}

def fileSent : Input := .frame 0 (.binary fileData) { mem := .zeros, now := 0 }

def seenFirst : List Input :=
  [arrival, (namedFile.command "EVENT" namedFile.id.toHex).sent Memory.zeros,
    namedMessage.sent Memory.zeros]

/-- The event was published before its file was announced: the data is acknowledged as a
duplicate and thrown away. -/
theorem published_file_missing :
    (0, .ok namedFile.id.toHex true (str "duplicate")) ∈
      (run seenRelay (seenFirst ++ [fileSent])).sent ∧
    ¬ ∃ ev, (run seenRelay (seenFirst ++ [fileSent])).Holds ev ∧ ev.id = namedFile.id ∧
      (run seenRelay (seenFirst ++ [fileSent])).Retrieves ev := by
  refine ⟨by decide +kernel, ?_⟩
  intro ⟨ev, he, _, hret⟩
  have hrecords : (run seenRelay (seenFirst ++ [fileSent])).app.records =
      [(1, .event namedFile)] := by decide +kernel
  have hplain := (hret.names (run_regular _).valid he { mem := .zeros, now := 0 }).1
  obtain ⟨i, hi⟩ := he
  rw [hrecords, List.mem_singleton] at hi
  cases hi
  exact absurd hplain (by decide)

def announcedFirst : List Input := [arrival, namedMessage.sent Memory.zeros]

/-- A file that is announced once can be retrieved. -/
theorem announced_file_retrieved :
    ∃ ev, (run (fileRelay namedMessage) (announcedFirst ++ [fileSent])).Holds ev ∧
      ev.id = namedFile.id ∧
      (run (fileRelay namedMessage) (announcedFirst ++ [fileSent])).Retrieves ev := by
  have hwaits : ((run (fileRelay namedMessage) announcedFirst).peers 0).any (fun p =>
      decide (p.fileEvent = some namedFile) && decide (.ok namedFile.id.toHex true [] ∈
        (((run (fileRelay namedMessage) announcedFirst).session p).handle 0 (.binary fileData)
          { mem := .zeros, now := 0 }).1.out)) = true := by decide +kernel
  have hnone : (run (fileRelay namedMessage) announcedFirst).app.records = [] := by decide +kernel
  obtain ⟨p, hp, hboth⟩ := (Option.any_eq_true _ _).mp hwaits
  simp only [Bool.and_eq_true, decide_eq_true_eq] at hboth
  obtain ⟨hpend, hok⟩ := hboth
  have hsent (d : Str) (h : Sent (announcedFirst ++ [fileSent]) d) : d = fileData := by
    obtain ⟨conn, c, hin⟩ := h
    simp only [announcedFirst, fileSent, arrival, Structured.sent, List.cons_append,
      List.nil_append, List.mem_cons, reduceCtorEq, Input.frame.injEq, Frame.binary.injEq,
      List.not_mem_nil, or_false, false_or, false_and, and_false] at hin
    exact hin.2.1
  refine (acknowledged_retrievable_iff announcedFirst (fun x hx mem => ?_)
    (fun d d' hd hd' _ => (hsent d hd).trans (hsent d' hd').symm) hp hok).mpr ⟨fun ev he =>
      ?_, fun _ ev he => ?_⟩
  · rcases List.mem_pair.mp hx with rfl | rfl <;> intro h <;> cases h
  · obtain ⟨i, hi⟩ := he
    rw [hnone] at hi
    cases hi
  · cases hpend.symm.trans he
    decide +kernel

end Server

end NostrServer
