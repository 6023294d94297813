import NostrServer.AttachmentRuns
import NostrServer.Exchange
import NostrServer.Replaceable

namespace NostrServer
open Docdb

variable {rl : Relay}

/-- The event has a row in the attachment index and binary data, and its `x` tag names
the attachment. -/
structure Event.RefersTo (ext : External) (ev : Event) (k : ID) : Prop where
  kind : ev.kind = Kind.fileHeader
  file : (ev.findIndexedTag ext.hasher 102 (str "file")).isSome = true
  nip97 : ev.nip97 = true
  names : Names (ev.getTagContent (str "x")) k

def App.Attached (a : App rl) : Prop := ∀ i ev k, (i, .event ev) ∈ a.records →
    ev.RefersTo rl.ext k →
  ∃ j att, (j, .attachment att) ∈ a.records ∧ att.id = k

/-- What `processBinaryMessage` has made sure of when it looks for the attachment. -/
structure Upload (rl : Relay) where
  event : Event
  data : Str
  unwritten : ID
  indexed : event.Indexed rl.ext.hasher
  kind : event.kind = Kind.fileHeader
  nip97 : event.nip97 = true
  hash : rl.ext.sha256 data = fromHex unwritten (event.getTagContent (str "x"))

namespace Upload

def attachment (up : Upload rl) : Attachment := ⟨rl.ext.sha256 up.data, up.data⟩

theorem refers (up : Upload rl) (h : up.event.RefersTo rl.ext k) : up.attachment.id = k :=
  up.hash.trans (h.names.2 _)

end Upload

/-- How far an upload has come: its attachment was found, or it was not, or the numbers
its batch replaces are known, too. -/
inductive Found where
  | there
  | missing
  | replacing (old attOld : DocID)

/-- `run_attachment_gc` makes its list first and erases later, an upload looks for its
attachment first and stores later, and each of these is a step of its own. -/
structure Collecting (rl : Relay) where
  app : App rl
  /-- What the pass has still to kill. -/
  killthem : List ID := []
  uploads : List (Upload rl × Found) := []

namespace Collecting

inductive Action (rl : Relay) where
  | scan
  | kill (mem : IndexMemory)
  | find (up : Upload rl)
  | findAgain (caller : Nat)
  | publish (caller : Nat) (mem mem' : IndexMemory)

section
variable (x : Collecting rl)

/-- The first loop of `run_attachment_gc`; there is one pass at a time. -/
def scan : Collecting rl :=
  if x.killthem.isEmpty then
    { x with killthem := (App.gcScan (x.app.attachments.mergeSort App.rowLe) []).reverse }
  else x

def kill (mem : IndexMemory) : Collecting rl :=
  match x.killthem with
  | [] => x
  | k :: rest => { x with app := x.app.killAttachment mem k, killthem := rest }

def find (up : Upload rl) : Collecting rl :=
  { x with uploads := x.uploads ++
    [(up, if x.app.findAttachment up.attachment.id ≠ 0 then .there else .missing)] }

/-- What `App::publish` looks up before it stores an event with its attachment. -/
def findAgain (caller : Nat) : Collecting rl :=
  match x.uploads[caller]? with
  | some (up, .missing) =>
    match x.app.docToReplace up.event with
    | none => { x with uploads := x.uploads.eraseIdx caller }
    | some old =>
      { x with uploads :=
        x.uploads.set caller (up, .replacing old (x.app.findAttachment up.attachment.id)) }
  | _ => x

def store (a : App rl) (mem mem' : IndexMemory) (up : Upload rl) : Found → App rl
  | .there =>
    match a.publish mem up.event none with
    | .ok a' => a'
    | .error _ => a
  | .replacing old attOld =>
    match (Write.file mem mem' up.event old up.attachment attOld).commit a with
    | some a' => a'.publishEvent up.event none
    | none => a
  | .missing => a

def publish (caller : Nat) (mem mem' : IndexMemory) : Collecting rl :=
  match x.uploads[caller]? with
  | some (_, .missing) => x
  | some (up, found) =>
    { x with app := store x.app mem mem' up found, uploads := x.uploads.eraseIdx caller }
  | none => x

def step : Action rl → Collecting rl
  | .scan => x.scan
  | .kill mem => x.kill mem
  | .find up => x.find up
  | .findAgain caller => x.findAgain caller
  | .publish caller mem mem' => x.publish caller mem mem'

end

def machine (a : App rl) : Machine (Collecting rl) (Action rl) := ⟨{ app := a }, step⟩

/-- A pass without interruption is `run_attachment_gc`. -/
theorem pass_alone (x : Collecting rl) (h : x.killthem = []) (mem : IndexMemory) :
    (x.scan.killthem.foldl (fun y _ => y.kill mem) x.scan).app = x.app.runAttachmentGc mem := by
  have kills (ks : List ID) (y : Collecting rl) (hy : y.killthem = ks) :
      (ks.foldl (fun y _ => y.kill mem) y).app =
        ks.foldl (fun a k => a.killAttachment mem k) y.app := by
    induction ks generalizing y with
    | nil => rfl
    | cons k ks ih =>
      have hk : y.kill mem = { y with app := y.app.killAttachment mem k, killthem := ks } := by
        simp [kill, hy]
      rw [List.foldl_cons, List.foldl_cons, hk]
      exact ih _ rfl
  rw [kills _ _ rfl]
  simp [scan, h, App.runAttachmentGc]

/-- An upload without interruption is what `processBinaryMessage` does after its checks. -/
theorem upload_alone (a : App rl) (up : Upload rl) (mem mem' : IndexMemory) :
    (if a.findAttachment up.attachment.id ≠ 0 then a.publish mem up.event none
      else a.publishFile mem mem' up.event up.attachment none).toOption.getD a =
    ((((⟨a, [], []⟩ : Collecting rl).find up).findAgain 0).publish 0 mem mem').app := by
  have hd := a.docToReplace_fileHeader up.kind
  by_cases hf : a.findAttachment up.attachment.id ≠ 0
  · simp only [find, hf, ↓reduceIte, findAgain, publish, store, List.nil_append,
      List.getElem?_cons_zero, ne_eq, not_false_eq_true]
    cases a.publish mem up.event none <;> rfl
  · simp only [find, hf, ↓reduceIte, findAgain, publish, store, List.nil_append,
      List.getElem?_cons_zero, hd, List.set_cons_zero, Write.commit, App.publishFile]
    cases (a.put mem (.event up.event) 0).bind
      (fun a' => a'.put mem' (.attachment up.attachment) (a.findAttachment up.attachment.id))
        <;> rfl

/-- What was found out is still so when it is acted upon: nothing stored refers to what
the pass kills, and the attachment an upload does without is stored. -/
def StillSo (x : Collecting rl) : Action rl → Prop
  | .kill _ => ∀ k rest, x.killthem = k :: rest → ∀ i ev, (i, .event ev) ∈ x.app.records →
    ¬ ev.RefersTo rl.ext k
  | .publish caller _ _ => ∀ up, x.uploads[caller]? = some (up, .there) →
    x.app.findEventById up.event.id = 0 →
      ∀ k, up.event.RefersTo rl.ext k → ∃ j att, (j, .attachment att) ∈ x.app.records ∧ att.id = k
  | _ => True

/-- What holds in any order of the steps. The number of an attachment to replace is
still that attachment's, or nobody's. -/
structure Sound (x : Collecting rl) : Prop where
  valid : x.app.Valid
  filed : x.app.Filed
  replacing : ∀ up old attOld, (up, .replacing old attOld) ∈ x.uploads →
    old = 0 ∧ attOld ≤ rl.db.rev x.app.storage ∧
    ∀ d, (attOld, d) ∈ x.app.records → ∃ att, d = .attachment att ∧ att.id = up.attachment.id

variable {x : Collecting rl} {a a' : App rl}

/-- The storage a step leaves: in order, with numbers it gave out only now, and complete
if the storage before was. -/
structure Kept (a a' : App rl) : Prop where
  valid : a'.Valid
  filed : a'.Filed
  rev : rl.db.rev a.storage ≤ rl.db.rev a'.storage
  numbers : ∀ r ∈ a'.records, r ∈ a.records ∨ rl.db.rev a.storage < r.1

theorem Kept.refl (hv : a.Valid) (hf : a.Filed) : Kept a a :=
  ⟨hv, hf, Nat.le_refl _, fun _ hr => Or.inl hr⟩

theorem Sound.kept (h : Sound x) (hk : Kept x.app a') {ups : List (Upload rl × Found)}
    (hsub : ∀ u ∈ ups, u ∈ x.uploads) (ks : List ID) : Sound ⟨a', ks, ups⟩ := by
  refine ⟨hk.valid, hk.filed, fun up old attOld hm => ?_⟩
  obtain ⟨ho, hle, hd⟩ := h.replacing up old attOld (hsub _ hm)
  refine ⟨ho, Nat.le_trans hle hk.rev, fun d hin => ?_⟩
  rcases hk.numbers _ hin with hin | hlt
  · exact hd d hin
  · exact absurd hlt (Nat.not_lt.mpr hle)

theorem Kept.trans {a₁ : App rl} (h : Kept a a₁) (h' : Kept a₁ a') : Kept a a' := by
  refine ⟨h'.valid, h'.filed, Nat.le_trans h.rev h'.rev, fun r hr => ?_⟩
  rcases h'.numbers r hr with hr | hlt
  · exact h.numbers r hr
  · exact Or.inr (Nat.lt_of_le_of_lt h.rev hlt)

/-- Handing an event out changes nothing that is stored. -/
theorem Kept.published (h : Kept a a') (ev : Event) (src : Option Nat) :
    Kept a (a'.publishEvent ev src) :=
  ⟨⟨h.valid.unique, h.valid.indexed⟩, ⟨h.filed.hashed, h.filed.row, h.filed.rowOf, h.filed.apart⟩,
    h.rev, h.numbers⟩

theorem put_kept {d : EventOrAttachment} (h : a.put mem d old = some a') (hv : a.Valid)
    (hf : a.Filed) (he : ∀ ev, d = .event ev → ev.Indexed rl.ext.hasher)
    (ha : ∀ att, d = .attachment att → att.id = rl.ext.sha256 att.data) :
    Kept a a' ∧ ∃ id, App.Wrote a a' d old id := by
  obtain ⟨id, w, _, hlt, hle⟩ := App.put_later h
  refine ⟨⟨w.valid hv he, w.filed hv hf ha, Nat.le_of_lt (Nat.lt_of_lt_of_le hlt hle),
    fun r hr => ?_⟩, id, w⟩
  rcases (w.mem r).mp hr with rfl | ⟨hr, _⟩
  · exact Or.inr hlt
  · exact Or.inl hr

theorem kill_kept (hv : a.Valid) (hf : a.Filed) (mem : IndexMemory) (k : ID) :
    Kept a (a.killAttachment mem k) := by
  have hc := a.killAttachment_spec hv hf mem k
  refine ⟨hc.valid, hc.filed, ?_, fun r hr => Or.inl ?_⟩
  · unfold App.killAttachment
    split
    · exact Nat.le_refl _
    · exact (rl.db.erase_records a.storage _).1
  · obtain ⟨i, d⟩ := r
    cases d with
    | event ev => exact (hc.events i ev).mp hr
    | attachment att => exact ((hc.attachments i att).mp hr).1

structure Stored (a a' : App rl) (up : Upload rl) : Prop where
  kept : Kept a a'
  new : ∃ i, (i, .event up.event) ∈ a'.records
  events : ∀ i ev, (i, .event ev) ∈ a'.records → (i, .event ev) ∈ a.records ∨ ev = up.event
  attachments : ∀ j att, (j, .attachment att) ∈ a.records → att.id ≠ up.attachment.id →
    (j, .attachment att) ∈ a'.records

/-- The event alone is refused when its id is known, and is all that comes in otherwise. -/
theorem store_there (hv : a.Valid) (hf : a.Filed) (mem mem' : IndexMemory) (up : Upload rl) :
    (store a mem mem' up .there = a ∧ a.findEventById up.event.id ≠ 0) ∨
    (Stored a (store a mem mem' up .there) up ∧ a.findEventById up.event.id = 0 ∧
      ∀ j att, (j, .attachment att) ∈ (store a mem mem' up .there).records ↔
        (j, .attachment att) ∈ a.records) := by
  have hd := a.docToReplace_fileHeader up.kind
  have hk : up.event.kind ≠ Kind.eventDeletion := by
    rw [up.kind]
    decide
  cases hp : a.put mem (.event up.event) 0 with
  | none =>
    obtain ⟨i, e, he, hid⟩ :=
      App.taken_plain (App.not_replaceable_fileHeader up.kind) (App.put_none hp)
    refine Or.inl ⟨by simp [store, App.publish, hd, hp], fun hz => ?_⟩
    exact (a.findEventById_eq_zero _).mp hz i e he hid
  | some a' =>
    have hs : store a mem mem' up .there = a'.publishEvent up.event none := by
      simp [store, App.publish, hd, hp, hk]
    obtain ⟨hkept, id, w⟩ :=
      put_kept hp hv hf (fun ev he => by cases he; exact up.indexed) (fun att he => by cases he)
    have hatt (j : DocID) (att : Attachment) : (j, .attachment att) ∈ a'.records ↔
        (j, .attachment att) ∈ a.records := by
      refine (w.mem _).trans ⟨fun h => ?_, fun h => Or.inr ⟨h, App.number_pos h⟩⟩
      rcases h with he | ⟨h, _⟩
      · cases he
      · exact h
    have hfresh : a.findEventById up.event.id = 0 := by
      refine (a.findEventById_eq_zero _).mpr (fun i e he hid => w.free ?_)
      exact ⟨.ids up.event.id, id_key _ _, _, he, App.number_pos he, hid ▸ id_key _ e⟩
    rw [hs]
    refine Or.inr ⟨⟨hkept.published _ _, ⟨id, (w.mem _).mpr (Or.inl rfl)⟩, fun i ev hi => ?_,
      fun j att hj _ => (hatt j att).mpr hj⟩, hfresh, hatt⟩
    rcases (w.mem _).mp hi with he | ⟨hi, _⟩
    · cases he
      exact Or.inr rfl
    · exact Or.inl hi

/-- The batch is refused as a whole, or leaves the attachment stored. -/
theorem store_replacing (hv : a.Valid) (hf : a.Filed) (mem mem' : IndexMemory) (up : Upload rl)
    (attOld : DocID) (hold : ∀ d, (attOld, d) ∈ a.records → ∃ att, d = .attachment att ∧
      att.id = up.attachment.id) (hle : attOld ≤ rl.db.rev a.storage) :
        store a mem mem' up (.replacing 0 attOld) = a ∨
    (Stored a (store a mem mem' up (.replacing 0 attOld)) up ∧
      ∃ j, (j, .attachment up.attachment) ∈ (store a mem mem' up
        (.replacing 0 attOld)).records) := by
  cases hp : (Write.file mem mem' up.event 0 up.attachment attOld).commit a with
  | none => exact Or.inl (by simp [store, hp])
  | some a' =>
    have hs : store a mem mem' up (.replacing 0 attOld) = a'.publishEvent up.event none := by
      simp [store, hp]
    obtain ⟨a₁, hp₁, hp₂⟩ := Option.bind_eq_some_iff.mp hp
    obtain ⟨hk₁, id, w⟩ := put_kept hp₁ hv hf (fun ev he => by cases he; exact up.indexed)
      (fun att he => by cases he)
    obtain ⟨hk₂, id', w'⟩ := put_kept hp₂ hk₁.valid hk₁.filed (fun ev he => by cases he)
      (fun att he => by cases he; rfl)
    have hold₁ (d : EventOrAttachment) (h : (attOld, d) ∈ a₁.records) :
        ∃ att, d = .attachment att ∧ att.id = up.attachment.id := by
      rcases hk₁.numbers _ h with h | hlt
      · exact hold d h
      · exact absurd hlt (Nat.not_lt.mpr hle)
    have hevents := w'.events (fun e he => by
      obtain ⟨att, hd, _⟩ := hold₁ _ he
      cases hd)
    rw [hs]
    refine Or.inr ⟨⟨(hk₁.trans hk₂).published _ _,
      ⟨id, (hevents _ _).mpr ((w.mem _).mpr (Or.inl rfl))⟩,
      fun i ev hi => ?_, fun j att hj hne => ?_⟩, id', (w'.mem _).mpr (Or.inl rfl)⟩
    · rcases (w.mem _).mp ((hevents i ev).mp hi) with he | ⟨hi, _⟩
      · cases he
        exact Or.inr rfl
      · exact Or.inl hi
    · have hj₁ : (j, .attachment att) ∈ a₁.records := (w.mem _).mpr (Or.inr ⟨hj, App.number_pos hj⟩)
      refine (w'.mem _).mpr (Or.inr ⟨hj₁, ?_⟩)
      rintro rfl
      obtain ⟨att', hd, hid⟩ := hold₁ _ hj₁
      cases hd
      exact hne hid

theorem Stored.attached {up : Upload rl} (st : Stored a a' up) (h : a.Attached)
    (hsame : ∀ j att, (j, .attachment att) ∈ a.records → att.id = up.attachment.id →
      ∃ j att, (j, .attachment att) ∈ a'.records ∧ att.id = up.attachment.id)
    (hnew : ∀ k, up.event.RefersTo rl.ext k → ∃ j att, (j, .attachment att) ∈ a'.records ∧
      att.id = k) : a'.Attached := by
  intro i ev k hi href
  rcases st.events i ev hi with hi | rfl
  · obtain ⟨j, att, hj, hid⟩ := h i ev k hi href
    by_cases he : att.id = up.attachment.id
    · obtain ⟨j', att', hj', hid'⟩ := hsame j att hj he
      exact ⟨j', att', hj', hid'.trans (he.symm.trans hid)⟩
    · exact ⟨j, att, st.attachments j att hj he, hid⟩
  · exact hnew k href

theorem start_sound (hv : a.Valid) (hf : a.Filed) : Sound (⟨a, [], []⟩ : Collecting rl) :=
  ⟨hv, hf, fun _ _ _ hm => absurd hm List.not_mem_nil⟩

theorem kill_sound (h : Sound x) (mem : IndexMemory) : Sound (x.kill mem) := by
  unfold kill
  split
  · exact h
  · exact h.kept (kill_kept h.valid h.filed mem _) (fun u hu => hu) _

theorem find_sound (h : Sound x) (up : Upload rl) : Sound (x.find up) := by
  refine ⟨h.valid, h.filed, fun up' old attOld hm => ?_⟩
  rcases List.mem_append.mp hm with hm | hm
  · exact h.replacing up' old attOld hm
  · have he := (Prod.mk.inj (List.mem_singleton.mp hm)).2
    split at he <;> cases he

theorem findAgain_sound (h : Sound x) (caller : Nat) : Sound (x.findAgain caller) := by
  unfold findAgain
  split
  · rename_i up _
    rw [x.app.docToReplace_fileHeader up.kind]
    refine ⟨h.valid, h.filed, fun up' old attOld hm => ?_⟩
    rcases List.mem_or_eq_of_mem_set hm with hm | he
    · exact h.replacing up' old attOld hm
    · cases he
      refine ⟨rfl, ?_⟩
      rcases App.findAttachment_spec h.filed up.attachment.id with ⟨hz, _⟩ | ⟨att, hatt, hid⟩
      · rw [hz]
        exact ⟨Nat.zero_le _, fun d hd => absurd rfl (App.number_pos hd)⟩
      · refine ⟨(rl.db.ids_bound x.app.storage _ hatt).2, fun d hd => ⟨att, ?_, hid⟩⟩
        exact (Prod.mk.inj (same_record x.app.ids_nodup hd hatt rfl)).2
  · exact h

/-- What publishing does: it passes over a caller that has not looked again, is refused,
or stores the event, alone or with its attachment. -/
theorem publish_cases (h : Sound x) (caller : Nat) (mem mem' : IndexMemory) :
    ((x.publish caller mem mem').app = x.app ∧
      ∀ up, x.uploads[caller]? = some (up, .there) → x.app.findEventById up.event.id ≠ 0) ∨
    ∃ up, Stored x.app (x.publish caller mem mem').app up ∧
      ((x.uploads[caller]? = some (up, .there) ∧ x.app.findEventById up.event.id = 0 ∧
          ∀ j att, (j, .attachment att) ∈ (x.publish caller mem mem').app.records ↔
            (j, .attachment att) ∈ x.app.records) ∨
        (∀ up', x.uploads[caller]? ≠ some (up', .there)) ∧
          ∃ j, (j, .attachment up.attachment) ∈ (x.publish caller mem mem').app.records) := by
  unfold publish
  split
  · rename_i hw
    exact Or.inl ⟨rfl, fun up hu => by rw [hw] at hu; cases hu⟩
  · rename_i up found hmissing hw
    cases found with
    | missing => exact absurd rfl hmissing
    | there =>
      rcases store_there h.valid h.filed mem mem' up with ⟨hs, hk⟩ | ⟨st, hfresh, hatt⟩
      · refine Or.inl ⟨hs, fun up' hu => ?_⟩
        rw [hw] at hu
        cases hu
        exact hk
      · exact Or.inr ⟨up, st, Or.inl ⟨hw, hfresh, hatt⟩⟩
    | replacing old attOld =>
      have hno (up' : Upload rl) : x.uploads[caller]? ≠ some (up', .there) := fun hu => by
        rw [hw] at hu
        cases hu
      obtain ⟨rfl, hle, hold⟩ := h.replacing up old attOld (List.mem_of_getElem? hw)
      rcases store_replacing h.valid h.filed mem mem' up attOld hold hle with hs | ⟨st, hatt⟩
      · exact Or.inl ⟨hs, fun up' hu => absurd hu (hno up')⟩
      · exact Or.inr ⟨up, st, Or.inr ⟨hno, hatt⟩⟩
  · rename_i hw
    exact Or.inl ⟨rfl, fun up hu => by rw [hw] at hu; cases hu⟩

theorem publish_uploads (x : Collecting rl) (caller : Nat) (mem mem' : IndexMemory) :
    (x.publish caller mem mem').killthem = x.killthem ∧ ∀ u ∈ (x.publish caller mem mem').uploads,
      u ∈ x.uploads := by
  unfold publish
  split
  · exact ⟨rfl, fun u hu => hu⟩
  · exact ⟨rfl, fun u hu => List.mem_of_mem_eraseIdx hu⟩
  · exact ⟨rfl, fun u hu => hu⟩

theorem step_sound (h : Sound x) (action : Action rl) : Sound (x.step action) := by
  cases action with
  | scan =>
    dsimp only [step, scan]
    split
    · exact ⟨h.valid, h.filed, h.replacing⟩
    · exact h
  | kill mem => exact kill_sound h mem
  | find up => exact find_sound h up
  | findAgain caller => exact findAgain_sound h caller
  | publish caller mem mem' =>
    obtain ⟨hks, hups⟩ := x.publish_uploads caller mem mem'
    have hkept : Kept x.app (x.publish caller mem mem').app := by
      rcases publish_cases h caller mem mem' with ⟨he, _⟩ | ⟨up, st, _⟩
      · rw [he]
        exact Kept.refl h.valid h.filed
      · exact st.kept
    exact h.kept hkept hups _

theorem kill_attached (h : Sound x) (ha : x.app.Attached) (hs : x.StillSo (.kill mem)) :
    (x.kill mem).app.Attached := by
  unfold kill
  split
  · exact ha
  · rename_i k rest hk
    have hc := x.app.killAttachment_spec h.valid h.filed mem k
    intro i ev k' hi href
    have hi := (hc.events i ev).mp hi
    obtain ⟨j, att, hj, hid⟩ := ha i ev k' hi href
    refine ⟨j, att, (hc.attachments j att).mpr ⟨hj, ?_⟩, hid⟩
    rw [List.mem_singleton, hid]
    intro he
    exact hs k rest hk i ev hi (he ▸ href)

theorem publish_attached (h : Sound x) (ha : x.app.Attached)
    (hs : x.StillSo (.publish caller mem mem')) :
    (x.publish caller mem mem').app.Attached := by
  rcases publish_cases h caller mem mem' with ⟨he, _⟩ | ⟨up, st, ⟨hw, hz, hatt⟩ | ⟨_, j, hj⟩⟩
  · rw [he]
    exact ha
  · refine st.attached ha (fun j att hj hid => ⟨j, att, (hatt j att).mpr hj, hid⟩)
      (fun k href => ?_)
    obtain ⟨j, att, hj, hid⟩ := hs up hw hz k href
    exact ⟨j, att, (hatt j att).mpr hj, hid⟩
  · exact st.attached ha (fun _ _ _ _ => ⟨j, _, hj, rfl⟩) (fun k href => ⟨j, _, hj, up.refers href⟩)

theorem step_attached (h : Sound x) (ha : x.app.Attached) (action : Action rl)
    (hs : x.StillSo action) :
    (x.step action).app.Attached := by
  cases action with
  | scan =>
    dsimp only [step, scan]
    split <;> exact ha
  | kill mem => exact kill_attached h ha hs
  | find up => exact ha
  | findAgain caller =>
    have happ : (x.findAgain caller).app = x.app := by
      unfold findAgain
      split
      · split <;> rfl
      · rfl
    rw [step, happ]
    exact ha
  | publish caller mem mem' => exact publish_attached h ha hs

/-- A step that leaves nothing without its attachment acted on what was still so. -/
theorem stillSo_of_attached (h : Sound x) (action : Action rl) (ha : (x.step action).app.Attached) :
    x.StillSo action := by
  cases action with
  | scan => trivial
  | kill mem =>
    intro k rest hk i ev hi href
    have hc := x.app.killAttachment_spec h.valid h.filed mem k
    have happ : (x.kill mem).app = x.app.killAttachment mem k := by simp [kill, hk]
    rw [step, happ] at ha
    obtain ⟨j, att, hj, hid⟩ := ha i ev k ((hc.events i ev).mpr hi) href
    exact ((hc.attachments j att).mp hj).2 (by simp [hid])
  | find up => trivial
  | findAgain caller => trivial
  | publish caller mem mem' =>
    intro up hw hz k href
    rcases publish_cases h caller mem mem' with ⟨_, hno⟩ | ⟨up', st, ⟨hw', _, hatt⟩ | ⟨hno, _⟩⟩
    · exact absurd hz (hno up hw)
    · cases hw.symm.trans hw'
      obtain ⟨i, hi⟩ := st.new
      obtain ⟨j, att, hj, hid⟩ := ha i _ k hi href
      exact ⟨j, att, (hatt j att).mp hj, hid⟩
    · exact absurd hw (hno up)

/-- However the pass and the uploads take turns, every stored file event has its attachment
in every state exactly when what each found out is still so when it acts. -/
theorem in_use_kept_iff (a : App rl) (hv : a.Valid) (hf : a.Filed) (actions : List (Action rl)) :
    (∀ pre post, actions = pre ++ post → ((machine a).run pre).app.Attached) ↔
      a.Attached ∧ (machine a).Throughout StillSo actions := by
  have hrun (ha : a.Attached) :
      (∀ pre post, actions = pre ++ post → ((machine a).run pre).app.Attached) ↔
        (machine a).Throughout StillSo actions := by
    apply Machine.always_iff_throughout (m := machine a) (P := fun x => x.app.Attached)
      (I := fun x => Sound x ∧ x.app.Attached)
    · exact ⟨start_sound hv hf, ha⟩
    · exact fun x hx => hx.2
    · intro x action hx hs
      exact ⟨step_sound hx.1 action, step_attached hx.1 hx.2 action hs⟩
    · intro x action hx hnext
      exact stillSo_of_attached hx.1 action hnext
  constructor
  · intro h
    have ha : a.Attached := h [] actions rfl
    exact ⟨ha, (hrun ha).mp h⟩
  · rintro ⟨ha, h⟩
    exact (hrun ha).mpr h

abbrev fileServer : Relay := Server.fileRelay Server.namedMessage

def noFiles : App fileServer := { storage := fileServer.db.empty }

theorem noFiles_attached : noFiles.Attached := by
  intro i ev k hi
  have hr : noFiles.records = [] := fileServer.db.records_empty
  rw [hr] at hi
  cases hi

open Server (withData unnamedFile namedFile fileData fileHash)

theorem unnamed_hash : fileServer.ext.sha256 fileData =
    fromHex (.ofNat 0) ((withData unnamedFile).getTagContent (str "x")) := by decide +kernel

theorem named_hash : fileServer.ext.sha256 fileData =
    fromHex (.ofNat 0) ((withData namedFile).getTagContent (str "x")) := by decide +kernel

theorem withData_indexed (h : ev.Indexed fnv1a) : (withData ev).Indexed fileServer.ext.hasher := h

theorem unnamed_indexed : (withData unnamedFile).Indexed fileServer.ext.hasher :=
  withData_indexed (Event.parsed_indexed _)

theorem named_indexed : (withData namedFile).Indexed fileServer.ext.hasher :=
  withData_indexed (Event.parsed_indexed _)

/-- One file under two announcements. Only the second has a row in the index. -/
def unnamedUpload : Upload fileServer :=
  ⟨withData unnamedFile, fileData, .ofNat 0, unnamed_indexed, rfl, rfl, unnamed_hash⟩

def namedUpload : Upload fileServer :=
  ⟨withData namedFile, fileData, .ofNat 0, named_indexed, rfl, rfl, named_hash⟩

theorem named_refers : namedUpload.event.RefersTo fileServer.ext fileHash := by
  refine ⟨rfl, by decide +kernel, rfl, Spells.names ?_⟩
  decide +kernel

def unnamedStored : List (Action fileServer) :=
  [.find unnamedUpload, .findAgain 0, .publish 0 .zeros .zeros]

/-- The pass lists the file, as the event stored with it has no row in the index. -/
theorem unnamed_listed (rest : List (Action fileServer)) :
    (machine noFiles).run (unnamedStored ++ .scan :: rest) =
      rest.foldl step { (machine noFiles).run unnamedStored with killthem := [fileHash] } := by
  have hrows : ((machine noFiles).run unnamedStored).app.attachments = [⟨fileHash, none, 2⟩] := by
    decide +kernel
  have hidle : ((machine noFiles).run unnamedStored).killthem.isEmpty = true := rfl
  have hscan : ((machine noFiles).run unnamedStored).scan =
      { (machine noFiles).run unnamedStored with killthem := [fileHash] } := by
    simp [scan, hidle, hrows, App.gcScan, AttachmentRow.state]
  rw [← hscan]
  rfl

/-- The file is found while it stands on the list of the pass, and killed before the
event that refers to it is stored. -/
theorem file_in_use_killed : ¬ ∀ actions, ((machine noFiles).run actions).app.Attached := by
  intro h
  have hlast : ([Action.find namedUpload, .kill .zeros, .publish 0 .zeros .zeros].foldl step
      { (machine noFiles).run unnamedStored with killthem := [fileHash] }).app.records =
      [(3, .event (withData namedFile)), (1, .event (withData unnamedFile))] := by decide +kernel
  have hall : ([Action.find namedUpload, .kill .zeros, .publish 0 .zeros .zeros].foldl step
      { (machine noFiles).run unnamedStored with killthem := [fileHash] }).app.Attached :=
    unnamed_listed [.find namedUpload, .kill .zeros, .publish 0 .zeros .zeros] ▸ h _
  obtain ⟨j, att, hj, -⟩ :=
    hall 3 (withData namedFile) fileHash (by rw [hlast]; exact List.mem_cons_self) named_refers
  rw [hlast] at hj
  simp at hj

/-- The upload comes after the file was killed: it is stored again, with the event that
refers to it. -/
theorem named_upload_attached :
    ((machine noFiles).run (unnamedStored ++ .scan :: [.kill .zeros, .find namedUpload,
      .findAgain 0, .publish 0 .zeros .zeros])).app.Attached := by
  have hstart := Server.start_regular fileServer
  refine (in_use_kept_iff noFiles hstart.valid hstart.filed _).mpr ⟨noFiles_attached, ?_⟩ _ []
    (List.append_nil _).symm
  have hstored : (machine noFiles).Throughout StillSo unnamedStored := by
    refine ((Machine.throughout_nil.snoc trivial).snoc trivial).snoc ?_
    intro up hw
    cases hw
  have hkill : ((machine noFiles).run (unnamedStored ++ [.scan])).StillSo (.kill .zeros) := by
    rw [unnamed_listed []]
    intro k rest hk i ev hi href
    have hrecords : ((machine noFiles).run unnamedStored).app.records =
        [(2, .attachment ⟨fileHash, fileData⟩), (1, .event (withData unnamedFile))] := by
      decide +kernel
    have hi : (i, EventOrAttachment.event ev) ∈
        ((machine noFiles).run unnamedStored).app.records := hi
    have hev : ev = withData unnamedFile := by
      rw [hrecords] at hi
      simpa using And.right (by simpa using hi)
    rw [hev] at href
    exact absurd href.file (by decide +kernel)
  have hpublish : ((machine noFiles).run (unnamedStored ++ .scan :: [.kill .zeros,
      .find namedUpload, .findAgain 0])).StillSo (.publish 0 .zeros .zeros) := by
    have hidle : ((machine noFiles).run unnamedStored).uploads = [] := rfl
    have hgone : (((machine noFiles).run unnamedStored).app.killAttachment .zeros
        fileHash).findAttachment namedUpload.attachment.id = 0 := by decide +kernel
    have hups : ([Action.kill .zeros, .find namedUpload, .findAgain 0].foldl step
        { (machine noFiles).run unnamedStored with killthem := [fileHash] }).uploads =
        [(namedUpload, .replacing 0 0)] := by
      simp [step, kill, find, findAgain, hidle, hgone,
        App.docToReplace_fileHeader _ namedUpload.kind]
    intro up hw
    rw [unnamed_listed [.kill .zeros, .find namedUpload, .findAgain 0], hups] at hw
    cases hw
  have hscanned := hstored.snoc (x := Action.scan) trivial
  have hsought := ((hscanned.snoc hkill).snoc (x := Action.find namedUpload) trivial).snoc
    (x := Action.findAgain 0) trivial
  have hall := hsought.snoc (x := Action.publish 0 .zeros .zeros) (by simpa using hpublish)
  simpa using hall

end Collecting

end NostrServer
