import NostrServer.AttachmentIndex

namespace NostrServer
open Docdb

variable {rl : Relay}

/-- A file that is new, under an event that is new, is stored. -/
theorem App.publishFile_new {a : App rl} (hf : a.Filed) (hk : ev.kind = Kind.fileHeader)
    (hev : a.findEventById ev.id = 0) (hatt : a.findAttachment att.id = 0) (mem mem' : IndexMemory)
    (src : Option Nat) :
    ∃ a', a.publishFile mem mem' ev att src = .ok a' := by
  cases h : a.publishFile mem mem' ev att src with
  | ok a' => exact ⟨a', rfl⟩
  | error e =>
    exfalso
    obtain ⟨-, old, hd, ht | ⟨a₁, id, w, k, hkey, ⟨i, d⟩, hr, -, hk'⟩⟩ := publishFile_error h
    · obtain ⟨i, e, he, hid⟩ := taken_plain (not_replaceable_fileHeader hk) ht
      exact (a.findEventById_eq_zero _).mp hev i e he hid
    · obtain rfl : k = .attachments att.id := by
        simpa [uniqueKeys, indexByAuthorKindFn, indexNip05Fn] using hkey
      rcases (w.mem _).mp hr with he | ⟨hr, -⟩
      · cases he
        simp [uniqueKeys] at hk'
      · cases d with
        | event e => simp [uniqueKeys] at hk'
        | attachment att' =>
          have hid : att'.id = att.id := by simpa [uniqueKeys, eq_comm] using hk'
          exact (findAttachment_eq_zero hf _).mp hatt i att' hr hid

namespace Session

/-- The size an event announces, as `processBinaryMessage` reads it. -/
def announcedSize (ev : Event) : Nat :=
  (strtoull ((ev.getTagContent (str "size")).takeWhile (fun c => c ≠ 0))).1

/-- The data is what the peer waits for. -/
structure Fits (s : Session rl) (c : Circumstance) (data : Str) (ev : Event) : Prop where
  pending : s.peer.fileEvent = some ev
  size : announcedSize ev = data.length
  hash : rl.ext.sha256 data = fromHex c.mem.attachment (ev.getTagContent (str "x"))

/-- How a peer that waits for a file takes a binary message. -/
inductive Received (s : Session rl) (c : Circumstance) (data : Str)
    (ev : Event) : Session rl → Prop where
  | refused (text : Str) (app : s'.app = s.app)
    (out : s'.out = s.out ++ [.ok ev.id.toHex false text]) :
      Received s c data ev s'
  | duplicate (fits : Fits s c data ev) (known : s.app.findEventById ev.id ≠ 0)
    (app : s'.app = s.app)
      (out : s'.out = s.out ++ [.ok ev.id.toHex true (str "duplicate")]) : Received s c data ev s'
  | reused (new : DocID) (fits : Fits s c data ev) (unknown : s.app.findEventById ev.id = 0)
      (there : s.app.findAttachment (rl.ext.sha256 data) ≠ 0)
      (wrote : App.Wrote s.app s'.app (.event { ev with nip97 := true }) 0 new)
      (out : s'.out = s.out ++ [.ok ev.id.toHex true []]) : Received s c data ev s'
  | uploaded (a : App rl) (new new' : DocID) (fits : Fits s c data ev)
    (unknown : s.app.findEventById ev.id = 0)
      (missing : s.app.findAttachment (rl.ext.sha256 data) = 0)
      (wrote : App.Wrote s.app a (.event { ev with nip97 := true }) 0 new)
      (wroteFile : App.Wrote a s'.app (.attachment ⟨rl.ext.sha256 data, data⟩) 0 new')
      (out : s'.out = s.out ++ [.ok ev.id.toHex true []]) : Received s c data ev s'

theorem processBinaryMessage_received (s : Session rl) (c : Circumstance) (data : Str)
    (hpend : s.peer.fileEvent = some ev) (hk : ev.kind = Kind.fileHeader) :
    Received s c data ev (s.processBinaryMessage c.mem data).1 := by
  have hz : s.app.docToReplace { ev with nip97 := true } = some 0 :=
    App.docToReplace_fileHeader _ hk
  unfold processBinaryMessage
  simp only [hpend]
  split
  · exact .refused _ rfl rfl
  rename_i hfits
  simp only [not_or, Classical.not_not] at hfits
  have fits : Fits s c data ev := ⟨hpend, hfits.1, hfits.2⟩
  split
  · rename_i hknown
    exact .duplicate fits hknown rfl rfl
  rename_i hnew
  have unknown : s.app.findEventById ev.id = 0 := Classical.not_not.mp hnew
  by_cases hatt : s.app.findAttachment (rl.ext.sha256 data) ≠ 0
  · simp only [hatt, ↓reduceIte, ne_eq, not_false_eq_true]
    split
    · rename_i a hpub
      rcases App.publish_spec hpub with ⟨hd, _⟩ | ⟨old, new, hd, w, -⟩
      · cases hz.symm.trans hd
      · cases hz.symm.trans hd
        exact .reused new fits unknown hatt ⟨w.fresh, w.mem, w.attachments, w.free⟩ rfl
    · exact .refused _ rfl rfl
  · simp only [hatt, ↓reduceIte]
    split
    · rename_i a hpub
      have missing : s.app.findAttachment (rl.ext.sha256 data) = 0 := Classical.not_not.mp hatt
      rcases App.publishFile_spec hpub with ⟨hd, _⟩ | ⟨old, new, a₁, new', hd, w, w', -⟩
      · cases hz.symm.trans hd
      · cases hz.symm.trans hd
        rw [missing] at w'
        exact .uploaded a₁ new new' fits unknown missing w ⟨w'.fresh, w'.mem,
          w'.attachments, w'.free⟩ rfl
    · exact .refused _ rfl rfl

theorem processBinaryMessage_unwanted {s : Session rl} (h : s.peer.fileEvent = none) (mem : Memory)
    (data : Str) :
    s.processBinaryMessage mem data = (s.sendNotice (str "unsupported binary message"), none) := by
  unfold processBinaryMessage
  simp only [h]

/-- The data fits the file that is waited for, and both are new. -/
structure Uploads (s : Session rl) (c : Circumstance) (data : Str)
    (ev : Event) : Prop extends Fits s c data ev where
  unknown : s.app.findEventById ev.id = 0
  missing : s.app.findAttachment (rl.ext.sha256 data) = 0

/-- New data that fits is stored. -/
theorem Uploads.stores {s : Session rl} (hf : s.app.Filed) (h : Uploads s c data ev)
    (hk : ev.kind = Kind.fileHeader) :
    ∃ a new new', App.Wrote s.app a (.event { ev with nip97 := true }) 0 new ∧
      App.Wrote a (s.processBinaryMessage c.mem data).1.app
        (.attachment ⟨rl.ext.sha256 data, data⟩) 0 new' := by
  have hpublished : ∃ a', s.app.publishFile (c.mem.index 0) (c.mem.index 1) { ev with
      nip97 := true }
      ⟨rl.ext.sha256 data, data⟩ none = .ok a' := by
    apply App.publishFile_new hf
    · exact hk
    · exact h.unknown
    · exact h.missing
  obtain ⟨a', hdone⟩ := hpublished
  have hfits : ¬ (announcedSize ev ≠ data.length ∨
      rl.ext.sha256 data ≠ fromHex c.mem.attachment (ev.getTagContent (str "x"))) := by
    simp only [h.size, h.hash, ne_eq, not_true_eq_false, or_self, not_false_eq_true]
  have hnew : ¬ s.app.findEventById ({ ev with nip97 := true } : Event).id ≠ 0 :=
    Classical.not_not.mpr h.unknown
  have hmissing : ¬ s.app.findAttachment (rl.ext.sha256 data) ≠ 0 := Classical.not_not.mpr h.missing
  unfold announcedSize at hfits
  have happ : (s.processBinaryMessage c.mem data).1.app = a' := by
    simp only [processBinaryMessage, h.pending, hfits, hnew, hmissing, ↓reduceIte, hdone, send]
  have hplain : s.app.docToReplace { ev with nip97 := true } = some 0 := by
    apply App.docToReplace_fileHeader
    exact hk
  rcases App.publishFile_spec hdone with ⟨hd, _⟩ | ⟨old, new, a, new', hd, w, w', -⟩
  · cases hd.symm.trans hplain
  · cases hd.symm.trans hplain
    rw [h.missing] at w'
    exact ⟨a, new, new', w, happ ▸ w'⟩

end Session

end NostrServer
