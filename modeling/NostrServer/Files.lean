import NostrServer.Keys
import NostrServer.Retrieval

namespace NostrServer
open Docdb

/-- What links are made and read with: the url alphabet of base64, and the content types,
of which only those that are not binary data have a number. -/
structure LinkCodec where
  encode : Str → Str
  decode : Str → Str
  strContentType : Str → Option Nat
  ext2ctx : Nat → Str

namespace LinkCodec
variable (lc : LinkCodec)

def suffix (mime : Str) : Str :=
  match lc.strContentType mime with
  | some ctx => if (lc.ext2ctx ctx).isEmpty then [] else str "." ++ lc.ext2ctx ctx
  | none => []

def getAttachmentLink (id : ID) (mime : Str) : Str :=
  str "file/" ++ lc.encode id.bytes ++ lc.suffix mime

end LinkCodec

inductive FileReply where
  | notModified
  | file (mime etag data : Str)
deriving DecidableEq

variable {rl : Relay}

/-- The handler of `/file/`; `none` leaves the request to others. -/
def App.serveFile (a : App rl) (lc : LinkCodec) (unwritten attachment : ID) (tagged : Bool)
    (vpath : Str) : Option FileReply :=
  if tagged then some .notModified
  else
    match a.find (a.findEventById (SignatureTools.fill unwritten (lc.decode vpath))) with
    | some (.event ev) =>
      match a.find (a.findAttachment (getAttachmentId attachment ev)) with
      | some (.attachment att) => some (.file (ev.getTagContent (str "m")) vpath att.data)
      | _ => none
    | _ => none

namespace SignatureTools

/-- A full array takes nothing more. -/
theorem fillLoop_full (cs rest : Str) (pos : Nat) (out : Str) (h : n ≤ pos + cs.length) :
    fillLoop n (cs ++ rest) pos out = fillLoop n cs pos out := by
  have full (rest : Str) (pos : Nat) (out : Str) (h : n ≤ pos) : fillLoop n rest pos out = out := by
    induction rest with
    | nil => rfl
    | cons c rest ih => rw [fillLoop, if_neg (Nat.not_lt.mpr h), ih]
  induction cs generalizing pos out with
  | nil => exact full rest pos out h
  | cons c cs ih =>
    rw [List.cons_append, fillLoop, fillLoop]
    split
    · exact ih _ _ (by rw [List.length_cons] at h; omega)
    · rename_i hpos
      exact ih _ _ (Nat.le_add_right_of_le (Nat.not_lt.mp hpos))

theorem fill_take (unwritten b : Binary n) (h : cs.take n = b.bytes) : fill unwritten cs = b := by
  have hsize : (cs.take n).length = n := by rw [h, b.size]
  have hcs := fillLoop_full (n := n) (cs.take n) (cs.drop n) 0 unwritten.bytes (by omega)
  rw [List.take_append_drop] at hcs
  have hb : fillLoop n b.bytes 0 unwritten.bytes = b.bytes :=
    congrArg Binary.bytes (fill_bytes unwritten b)
  apply Binary.ext
  calc (fill unwritten cs).bytes = fillLoop n (cs.take n) 0 unwritten.bytes := hcs
    _ = b.bytes := by rw [h, hb]

end SignatureTools

namespace App

def Offers (a : App rl) (ev : Event) (data : Str) : Prop :=
  ∃ j att, (j, .attachment att) ∈ a.records ∧ Names (ev.getTagContent (str "x")) att.id ∧
    att.data = data

/-- The event that is found under an id is the one that has it. -/
theorem find_event {a : App rl} (hv : a.Valid) (hi : (i, .event ev) ∈ a.records) :
    a.find (a.findEventById ev.id) = some (.event ev) := by
  rcases a.findEventById_spec ev.id with ⟨-, hno⟩ | ⟨e, he, heid⟩
  · exact absurd rfl (hno i ev hi)
  · obtain ⟨-, rfl⟩ := hv.same_event he hi heid
    exact find_iff.mpr he

/-- What is found under the hash of an event is what the event offers. -/
theorem find_attachment {a : App rl} (hv : a.Valid) (hf : a.Filed)
    (hx : Written 32 (ev.getTagContent (str "x"))) (unwritten : ID) :
    (∃ att, a.find (a.findAttachment (getAttachmentId unwritten ev)) = some (.attachment att) ∧
      ∀ data, a.Offers ev data ↔ data = att.data) ∨
    (a.find (a.findAttachment (getAttachmentId unwritten ev)) = none ∧
      ∀ data, ¬ a.Offers ev data) := by
  have hnames (x : ID) : Names (ev.getTagContent (str "x")) x ↔
      x = getAttachmentId unwritten ev :=
    ⟨fun h => (h.2 unwritten).symm, fun h => ⟨hx, fun u => h ▸ fromHex_written hx u unwritten⟩⟩
  rcases findAttachment_spec hf (getAttachmentId unwritten ev) with ⟨hz, hno⟩ | ⟨att, hatt, hid⟩
  · refine Or.inr ⟨?_, ?_⟩
    · rw [hz]
      cases hfind : a.find 0 with
      | none => rfl
      | some d => exact absurd rfl (number_pos (find_iff.mp hfind))
    · rintro data ⟨j, att, hj, hn, -⟩
      exact hno j att hj ((hnames _).mp hn)
  · refine Or.inl ⟨att, find_iff.mpr hatt, fun data => ?_⟩
    constructor
    · rintro ⟨j, att', hj, hn, rfl⟩
      have hsame := hv.same_attachment hj hatt (((hnames _).mp hn).trans hid.symm)
      subst hsame
      cases same_record a.ids_nodup hj hatt rfl
      rfl
    · rintro rfl
      exact ⟨_, att, hatt, (hnames _).mpr hid, rfl⟩

end App

namespace Server

def urlLetters : Str := str "ABCDEFGHIJKLMNOPQRSTUVWXYZabcdefghijklmnopqrstuvwxyz0123456789-_"

def textLinks : LinkCodec where
  encode bytes :=
    (convertBits 8 6 bytes).map (fun w => urlLetters.getD w.toNat 0)
  decode text :=
    asChars (convertBits 6 8 ((text.takeWhile (fun c => urlLetters.contains c)).map
      (fun c => UInt8.ofNat (urlLetters.idxOf c))))
  strContentType mime := if mime = str "text/plain" then some 0 else none
  ext2ctx _ := str "txt"

end Server

end NostrServer
