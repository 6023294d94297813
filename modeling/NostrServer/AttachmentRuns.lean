import NostrServer.ReferenceServer
import NostrServer.Steps

namespace NostrServer
open Docdb

variable {rl : Relay}

/-- The event's hash names a stored attachment, and the index tells the collector. -/
def App.AttachedTo (a : App rl) (ev : Event) (i : DocID) : Prop :=
  ∃ j att, (j, .attachment att) ∈ a.records ∧ Names (ev.getTagContent (str "x")) att.id ∧
    ⟨att.id, some i, i⟩ ∈ a.attachments

/-- Every event with binary data has it. -/
def App.Complete (a : App rl) : Prop := ∀ i ev, (i, .event ev) ∈ a.records → ev.nip97 = true →
    a.AttachedTo ev i

/-- What `IndexAttachmentFn` looks for besides the kind, and a hash that writes every byte. -/
def Event.NamesFile (ext : External) (ev : Event) : Prop :=
  (ev.findIndexedTag ext.hasher 102 (str "file")).isSome = true ∧
  Written 32 (ev.getTagContent (str "x"))

/-- An announced file that is going to be waited for names itself so. -/
def Input.NamesFile (rl : Relay) : Input → Prop
  | .frame _ f c => ∀ m ev, Carries rl f (str "FILE") m →
    Event.fromStructured rl.ext c.mem.event m = .ok ev →
      Session.fileCheck rl.options.attachmentMaxSize ev = .ok () → ev.NamesFile rl.ext
  | _ => True

namespace App

/-- Putting an event leaves the attachments alone. -/
theorem docToReplace_not_attachment {a : App rl} {ev : Event} {old : DocID}
    (h : a.docToReplace ev = some old) (att : Attachment) : (old, .attachment att) ∉ a.records := by
  intro hatt
  rcases a.docToReplace_spec ev with ⟨hd, _⟩ | ⟨hd, _⟩ | ⟨i, e, hd, he, _⟩
  · cases hd.symm.trans h
  · cases hd.symm.trans h
    exact number_pos hatt rfl
  · cases hd.symm.trans h
    cases same_record a.ids_nodup he hatt rfl

theorem Wrote.attached {a a' : App rl} {d : EventOrAttachment} {old new i : DocID}
    (w : Wrote a a' d old new) (hold : ∀ att, (old, .attachment att) ∉ a.records) (hi : i ≠ old)
    (h : a.AttachedTo ev i) : a'.AttachedTo ev i := by
  obtain ⟨j, att, hj, hn, hrow⟩ := h
  refine ⟨j, att, (w.mem _).mpr (Or.inr ⟨hj, ?_⟩), hn, w.event_row hi hrow⟩
  rintro rfl
  exact hold att hj

/-- A document came in that is no event with binary data, or one whose data is there. -/
theorem Wrote.complete {a a' : App rl} {d : EventOrAttachment} {old new : DocID}
    (w : Wrote a a' d old new) (h : a.Complete) (hold : ∀ att, (old, .attachment att) ∉ a.records)
    (hnew : ∀ ev, d = .event ev → ev.nip97 = true → a'.AttachedTo ev new) : a'.Complete := by
  intro i ev hi hn
  rcases (w.mem _).mp hi with he | ⟨hi, hne⟩
  · obtain ⟨rfl, hd⟩ := Prod.mk.inj he
    exact hnew ev hd.symm hn
  · exact w.attached hold hne (h i ev hi hn)

/-- The row of a file header that comes in. -/
theorem Wrote.header_row {a a' : App rl} {ev : Event} {old new : DocID} {x : ID}
    (w : Wrote a a' (.event ev) old new) (hk : ev.kind = Kind.fileHeader)
    (hf : (ev.findIndexedTag rl.ext.hasher 102 (str "file")).isSome = true)
    (hx : Names (ev.getTagContent (str "x")) x) : ⟨x, some new, new⟩ ∈ a'.attachments := by
  obtain ⟨mem, hrows⟩ := w.attachments
  rw [hrows]
  refine mem_attachmentsUpdate.mpr
    (Or.inl ⟨_, rfl, mem_indexAttachmentFn.mpr (Or.inr ⟨ev, rfl, hk, hf, ?_⟩)⟩)
  rw [hx.2]

theorem Collected.complete {a : App rl} (hv : a.Valid) (hf : a.Filed) (mem : IndexMemory)
    (h : a.Complete) :
    (a.runAttachmentGc mem).Complete := by
  intro i ev hi hn
  have hc := a.runAttachmentGc_collected hv hf mem
  have hi := (hc.events i ev).mp hi
  obtain ⟨j, att, hj, hnames, hrow⟩ := h i ev hi hn
  exact ⟨j, att, (a.runAttachmentGc_keeps hv hf mem (number_pos hi) hrow j att rfl).mpr hj, hnames,
    hc.rows _ _ hrow⟩

theorem Same.complete {a b : App rl} (h : a.Same b) (hc : b.Complete) : a.Complete := by
  intro i ev hi hn
  obtain ⟨j, att, hj, hrest⟩ := hc i ev (h.records ▸ hi) hn
  exact ⟨j, att, h.records ▸ hj, h.attachments ▸ hrest⟩

end App

namespace Session

theorem Passed.plain {s : Session rl} {id : Str} (h : Passed s c m ns id ev) :
    ev.nip97 = false := by
  obtain ⟨ev', hparsed, rfl⟩ := h.parsed
  have hn := (Event.fromStructured_ok hparsed).2.2.1
  rcases s.trust_cases ev' with he | ⟨_, _, he⟩ <;> rw [he] <;> exact hn

/-- What a message stores is complete if what was waited for names its file. -/
theorem Effect.complete {s s' : Session rl} (h : Effect s conn f c s') (hf : s.app.Filed)
    (hc : s.app.Complete) (hp : ∀ ev, s.peer.fileEvent = some ev → ev.kind = Kind.fileHeader ∧
      ev.NamesFile rl.ext) : s'.app.Complete := by
  have plain {ev : Event} {new : DocID} (hn : ev.nip97 = false) :
      ∀ e, EventOrAttachment.event ev = .event e → e.nip97 = true → s'.app.AttachedTo e new := by
    rintro e he ht
    cases he
    rw [hn] at ht
    cases ht
  cases h with
  | quiet q => exact q.app.complete hc
  | broadcast m id ev _ p hk hs ha =>
    intro i e hi hn
    have hr : s'.app.records = s.app.records := by simp [App.records, hs]
    obtain ⟨j, att, hj, hrest⟩ := hc i e (hr ▸ hi) hn
    exact ⟨j, att, hr ▸ hj, ha ▸ hrest⟩
  | published m id ev old new _ p l hk hd w =>
    exact w.complete hc (App.docToReplace_not_attachment hd) (plain p.plain)
  | deleted m id ev e i new _ p l hk ht hid hauth w =>
    refine w.complete hc (fun att hatt => ?_) (plain p.plain)
    cases same_record s.app.ids_nodup ht hatt rfl
  | awaits m id ev _ p l hchk ha => exact ha.complete hc
  | seen ev hpend ha => exact ha.complete hc
  | dropped ha => exact ha.complete hc
  | reused data ev old new hfr hpend hh hatt hd w =>
    obtain ⟨hk, hfile, hx⟩ := hp ev hpend
    have hold := App.docToReplace_not_attachment hd
    have hnames : Names (ev.getTagContent (str "x")) (rl.ext.sha256 data) :=
      ⟨hx, fun u => hh ▸ fromHex_written hx u _⟩
    apply w.complete hc hold
    intro e he _
    cases he
    rcases App.findAttachment_spec hf (rl.ext.sha256 data) with ⟨hz, _⟩ | ⟨att, hin, hid⟩
    · exact absurd hz hatt
    · refine ⟨_, att, (w.mem _).mpr (Or.inr ⟨hin, fun he => hold att ?_⟩), hid ▸ hnames, ?_⟩
      · rw [← show s.app.findAttachment (rl.ext.sha256 data) = old from he]
        exact hin
      · rw [hid]
        exact w.header_row hk hfile hnames
  | uploaded data ev old new new' a hfr hpend hh hatt hd w w' =>
    obtain ⟨hk, hfile, hx⟩ := hp ev hpend
    have hnames : Names (ev.getTagContent (str "x")) (rl.ext.sha256 data) :=
      ⟨hx, fun u => hh ▸ fromHex_written hx u _⟩
    have hz (att : Attachment) : ((0 : DocID), EventOrAttachment.attachment att) ∉ a.records :=
      fun h => App.number_pos h rfl
    intro i e hi hn
    obtain ⟨hi, -⟩ : (i, EventOrAttachment.event e) ∈ a.records ∧ i ≠ 0 := by
      simpa using (w'.mem _).mp hi
    rcases (w.mem _).mp hi with he | ⟨hi', hne⟩
    · cases he
      exact ⟨new', _, (w'.mem _).mpr (Or.inl rfl), hnames, w'.event_row (App.number_pos hi)
        (w.header_row hk hfile hnames)⟩
    · exact w'.attached hz (App.number_pos hi)
        (w.attached (App.docToReplace_not_attachment hd) hne (hc i e hi' hn))

/-- What is waited for names its file, if the messages do. -/
theorem Effect.pending_named {s s' : Session rl} (h : Effect s conn f c s')
    (hx : (Input.frame conn f c).NamesFile rl)
    (hp : ∀ ev, s.peer.fileEvent = some ev → ev.NamesFile rl.ext)
    (hn : s'.peer.fileEvent = some ev) :
    ev.NamesFile rl.ext := by
  rcases h.pending hn with he | ⟨ev', he, rfl⟩ | ⟨m, id, hc, p, _, hchk⟩
  · exact hp ev he
  · exact hp ev' he
  · obtain ⟨ev', hparsed, rfl⟩ := p.parsed
    rcases s.trust_cases ev' with he | ⟨_, _, he⟩
    · rw [he] at hchk ⊢
      exact hx m ev' hc hparsed hchk
    · rw [he] at hchk ⊢
      exact hx m ev' hc hparsed hchk

/-- The text of an event's id retrieves its data. -/
theorem retrievable_complete {s : Session rl} (hv : s.app.Valid) (hf : s.app.Filed)
    (hc : s.app.Complete) (mem : Memory) {i : DocID} {ev : Event}
    (hi : (i, .event ev) ∈ s.app.records) (hn : ev.nip97 = true) {text : Str}
    (ht : Spells text ev.id) : ∃ j att, (j, .attachment att) ∈ s.app.records ∧
      Names (ev.getTagContent (str "x")) att.id ∧ s.retrievable mem text = some att := by
  obtain ⟨j, att, hj, hnames, -⟩ := hc i ev hi hn
  refine ⟨j, att, hj, hnames, ?_⟩
  have hev : s.app.find (s.app.findEventById (fromHex mem.retrieved text)) = some (.event ev) := by
    rw [ht.names.2]
    rcases s.app.findEventById_spec ev.id with ⟨_, hno⟩ | ⟨e, he, hid⟩
    · exact absurd rfl (hno i ev hi)
    · obtain ⟨-, rfl⟩ := hv.same_event he hi hid
      exact App.find_iff.mpr he
  have hatt : s.app.find (s.app.findAttachment
      (fromHex mem.attachment (ev.getTagContent (str "x")))) =
      some (.attachment att) := by
    rw [hnames.2]
    rcases App.findAttachment_spec hf att.id with ⟨_, hno⟩ | ⟨att', he, hid⟩
    · exact absurd rfl (hno j att hj)
    · have hnum := hv.same_attachment he hj hid
      rw [hnum]
      exact App.find_iff.mpr hj
  simp [retrievable, hev, hn, hatt]

end Session

namespace Server

/-- Nothing stored lacks its attachment, nothing waited for will. -/
def Complete (sv : Server rl) : Prop :=
  sv.app.Complete ∧ ∀ conn p, sv.peers conn = some p → ∀ ev, p.fileEvent = some ev →
  ev.NamesFile rl.ext

theorem step_complete (sv : Server rl) (h : sv.Regular) (hc : sv.Complete) (x : Input)
    (hx : x.NamesFile rl) :
    (sv.step x).Complete := by
  have hm := sv.step_moved h.valid x
  generalize sv.step x = sv' at hm ⊢
  cases hm with
  | still _ app peers =>
    refine ⟨app ▸ hc.1, fun conn q hq ev he => ?_⟩
    rcases peers conn q hq with hq | ⟨hn, _⟩
    · exact hc.2 conn q hq ev he
    · rw [hn] at he
      cases he
  | gc mem => exact ⟨App.Collected.complete h.valid h.filed mem hc.1, hc.2⟩
  | message conn f c p s' peer effect app peers =>
    have hold := hc.2 conn p peer
    refine ⟨app ▸ effect.complete h.filed hc.1
      (fun ev he => ⟨(h.pending conn p peer ev he).2, hold ev he⟩), ?_⟩
    intro i q hq ev he
    rcases peers i q hq with ⟨rfl, rfl⟩ | hq
    · exact effect.pending_named hx hold he
    · exact hc.2 i q hq ev he

theorem start_complete (rl : Relay) : (start rl).Complete := by
  refine ⟨fun i ev hi => ?_, fun conn p hp => (nomatch hp)⟩
  have hr : (start rl).app.records = [] := rl.db.records_empty
  rw [hr] at hi
  cases hi

/-- In a run whose announced files name themselves, attachments are what their ids say,
and every event with binary data has it and it can be retrieved. -/
theorem attachments_kept (inputs : List Input) (h : ∀ x ∈ inputs, x.NamesFile rl) :
    (∀ i att, (i, .attachment att) ∈ (run rl inputs).app.records →
      att.id = rl.ext.sha256 att.data) ∧
    (∀ i j att att', (i, .attachment att) ∈ (run rl inputs).app.records →
      (j, .attachment att') ∈ (run rl inputs).app.records → att.id = att'.id → i = j) ∧
    ∀ i ev, (i, .event ev) ∈ (run rl inputs).app.records → ev.nip97 = true →
      ∃ j att, (j, .attachment att) ∈ (run rl inputs).app.records ∧
        Names (ev.getTagContent (str "x")) att.id ∧
        ∀ p mem text, Spells text ev.id →
          ((run rl inputs).session p).retrievable mem text = some att := by
  have hr : (run rl inputs).Regular := run_regular inputs
  have hnamed : (machine rl).Throughout (fun _ x => x.NamesFile rl) inputs := fun pre x post he =>
    h x (by simp [he])
  have hc : (run rl inputs).Complete :=
    Machine.run_induction (P := fun inputs => (run rl inputs).Complete) (start_complete rl)
    (fun pre x hp hx => run_step pre x ▸ step_complete _ (run_regular pre) hp x hx)
    hnamed
  refine ⟨hr.filed.hashed, fun i j att att' hi hj he => hr.valid.same_attachment hi hj he,
    fun i ev hi hn => ?_⟩
  obtain ⟨j, att, hj, hnames, -⟩ := hc.1 i ev hi hn
  refine ⟨j, att, hj, hnames, fun p mem text ht => ?_⟩
  obtain ⟨j', att', hj', hnames', hret⟩ :=
    Session.retrievable_complete (s := (run rl inputs).session p) hr.valid
    hr.filed hc.1 mem hi hn ht
  have hid : att'.id = att.id := (hnames'.2 att.id).symm.trans (hnames.2 att.id)
  have hnum := hr.valid.same_attachment hj' hj hid
  cases same_record (run rl inputs).app.ids_nodup hj' hj hnum
  exact hret

def fileData : Str := str "hi"

def fileHash : ID := .ofNat 0x8f434346648f6b96df89dda901c5176b10a6d83961dd3c1ac88b59b2dc327aa4

/-- The tags of its announcement, but for the one that `IndexAttachmentFn` asks for. -/
def fileTags : List Tag :=
  [⟨str "x", fileHash.toHex, []⟩, ⟨str "m", str "text/plain", []⟩, ⟨str "size", str "2", []⟩]

def unnamedFile : Event := Event.parsed
  { kind := 1063, createdAt := 1700000000, tags := fileTags
    id := .ofNat 0xcd6414e28f09351472e0c21912d98b55ed0291529dc31278459eb324e7156c1b
    author := note.author
    sig := .ofNat 0x97ce2c198fd129f8eaeafb0f7e801c5ca62109f529c8e267929dca8cee5c839e5bdd5024a701ba9947de59daafaf8b80b5d090061318f45cdd232a32afe38104 }

def namedFile : Event := Event.parsed
  { kind := 1063, createdAt := 1700000000, tags := ⟨str "f", str "file", []⟩ :: fileTags
    id := .ofNat 0xc9554209e1b16a829455ece35dbc87489c84c58cae0da527532c99a901f5a12a
    author := note.author
    sig := .ofNat 0x0b88a0932db3afe5f4e90e26799167ae9db751f0d543047dc5370498b345a9b9375f7f885ff21f1c56c9cec7455db9a5ae433b952e9e74a87c6db8d3dc16a7b5 }

def unnamedText : Str :=
  str "[0,\"f9308a019258c31049344f85f89d5229b531c845836f99b08601f113bce036f9\",1700000000,1063,[[\"x\",\"8f434346648f6b96df89dda901c5176b10a6d83961dd3c1ac88b59b2dc327aa4\"],[\"m\",\"text/plain\"],[\"size\",\"2\"]],\"\"]"

def namedText : Str :=
  str "[0,\"f9308a019258c31049344f85f89d5229b531c845836f99b08601f113bce036f9\",1700000000,1063,[[\"f\",\"file\"],[\"x\",\"8f434346648f6b96df89dda901c5176b10a6d83961dd3c1ac88b59b2dc327aa4\"],[\"m\",\"text/plain\"],[\"size\",\"2\"]],\"\"]"

/-- The event as it is stored with its data. -/
def withData (ev : Event) : Event := { ev with nip97 := true }

def fileRelay (announced : Structured) : Relay :=
  plainRelay (tabled [(unnamedText, unnamedFile.id), (namedText, namedFile.id),
    (fileData, fileHash)]
    [(unnamedFile.id, unnamedFile.author, unnamedFile.sig),
      (namedFile.id, namedFile.author, namedFile.sig)]
    [announced]) {}

def upload (announced : Structured) : List Input :=
  [arrival, announced.sent Memory.zeros,
    .frame 0 (.binary fileData) { mem := Memory.zeros, now := 0 }]

def unnamedMessage : Structured := unnamedFile.command "FILE" unnamedFile.id.toHex

def namedMessage : Structured := namedFile.command "FILE" namedFile.id.toHex

def collect : Input := .gc .zeros

/-- The index has no row of an announcement without the tag: the file is collected at once. -/
theorem unnamed_file_lost : ¬ ∀ i ev,
    (i, .event ev) ∈ (run (fileRelay unnamedMessage)
      (upload unnamedMessage ++ [collect])).app.records → ev.nip97 = true →
    ∃ j att, (j, .attachment att) ∈ (run (fileRelay unnamedMessage)
      (upload unnamedMessage ++ [collect])).app.records ∧
      Names (ev.getTagContent (str "x")) att.id := by
  intro h
  have hrecords : (run (fileRelay unnamedMessage) (upload unnamedMessage)).app.records =
      [(2, .attachment ⟨fileHash, fileData⟩), (1, .event (withData unnamedFile))] := by
        decide +kernel
  have hrows : (run (fileRelay unnamedMessage) (upload unnamedMessage)).app.attachments =
      [⟨fileHash, none, 2⟩] := by decide +kernel
  have hreg : (run (fileRelay unnamedMessage) (upload unnamedMessage)).Regular := run_regular _
  have hc := App.runAttachmentGc_collected _ hreg.valid hreg.filed .zeros
  rw [run_step] at h
  have hin : (1, .event (withData unnamedFile)) ∈ (run (fileRelay unnamedMessage)
      (upload unnamedMessage)).app.records := by
    rw [hrecords]
    simp
  obtain ⟨j, att, hj, -⟩ := h 1 (withData unnamedFile) ((hc.events _ _).mpr hin) rfl
  obtain ⟨hin, hkept⟩ := (hc.attachments _ _).mp hj
  rw [hrecords] at hin
  rw [hrows, List.mergeSort_singleton] at hkept
  have hatt : j = 2 ∧ att = ⟨fileHash, fileData⟩ := by simpa using hin
  rw [hatt.2] at hkept
  exact hkept (by decide +kernel)

/-- A file whose announcement names it is there after a pass of the collector. -/
theorem named_file_kept :
    ∃ j att, (j, .attachment att) ∈ (run (fileRelay namedMessage)
      (upload namedMessage ++ [collect])).app.records ∧
      Names ((withData namedFile).getTagContent (str "x")) att.id := by
  have hnamed : ∀ x ∈ upload namedMessage ++ [collect], x.NamesFile (fileRelay namedMessage) := by
    intro x hx
    simp only [upload, List.cons_append, List.nil_append, List.mem_cons,
      List.not_mem_nil, or_false] at hx
    rcases hx with rfl | rfl | rfl | rfl
    · trivial
    · intro m ev hc hparsed _
      obtain ⟨msg, hm, -, rfl⟩ := hc.listed
      obtain rfl := List.mem_singleton.mp hm
      have hev : (Event.fromStructured (fileRelay namedMessage).ext Memory.zeros.event
          (namedMessage.item 1)).toOption =
          some namedFile := by decide +kernel
      rw [hparsed] at hev
      cases hev
      exact ⟨by decide +kernel, by decide +kernel⟩
    · rintro m ev ⟨payload, msg, hf, -⟩
      cases hf
    · trivial
  have hrecords : (run (fileRelay namedMessage) (upload namedMessage)).app.records =
      [(2, .attachment ⟨fileHash, fileData⟩), (1, .event (withData namedFile))] := by decide +kernel
  have hreg : (run (fileRelay namedMessage) (upload namedMessage)).Regular := run_regular _
  have hc := App.runAttachmentGc_collected _ hreg.valid hreg.filed .zeros
  have hin : (1, .event (withData namedFile)) ∈
      (run (fileRelay namedMessage) (upload namedMessage ++ [collect])).app.records := by
    rw [run_step]
    exact (hc.events _ _).mpr (by rw [hrecords]; simp)
  have hflag : (withData namedFile).nip97 = true := rfl
  obtain ⟨j, att, hj, hn, -⟩ := (attachments_kept _ hnamed).2.2 1 (withData namedFile) hin hflag
  exact ⟨j, att, hj, hn⟩

end Server

end NostrServer
