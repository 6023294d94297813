import NostrServer.Reference

namespace NostrServer

/-- `docdb::StructuredDocument<>`: the encoders append to the output, the decoders
take the leading byte already read and leave the rest of the input. -/
structure StructuredDocument where
  stringToBinary : UInt8 → Str → Str
  uintToBinary : UInt8 → Nat → Str
  stringFromBinary : UInt8 → Str → Str × Str
  uintFromBinary : UInt8 → Str → Nat × Str

/-- An encoder leaves the top two bits of its leading byte to the caller, and the
decoder undoes it without reading past its end. -/
def Inverts (encode : UInt8 → α → Str) (decode : UInt8 → Str → α × Str) : Prop :=
  ∀ extra, extra &&& 0x3F = 0 → ∀ v, ∃ lead body, encode extra v = lead :: body ∧
    lead &&& 0xC0 = extra ∧ ∀ rest, decode lead (body ++ rest) = (v, rest)

structure StructuredDocument.Lawful (srl : StructuredDocument) : Prop where
  string_inverts : Inverts srl.stringToBinary srl.stringFromBinary
  uint_inverts : Inverts srl.uintToBinary srl.uintFromBinary

def flagBits (ev : Event) : UInt8 :=
  (if ev.nip97 then 0x80 else 0) ||| (if ev.trusted then 0x40 else 0)

def tagToBinary (srl : StructuredDocument) (t : Tag) : Str :=
  srl.stringToBinary 0 t.tag ++ srl.stringToBinary 0 t.content ++
    srl.uintToBinary 0 t.additionalContent.length ++
      t.additionalContent.flatMap (srl.stringToBinary 0)

/-- `EventDocument::to_binary` with an iterator that appends: writing through it
without taking the advanced copy appends all the same. -/
def toBinary (srl : StructuredDocument) : EventOrAttachment → Str
  | .event ev =>
    0 :: (srl.stringToBinary (flagBits ev) ev.content ++ srl.uintToBinary 0 ev.kind.toNat ++
      srl.uintToBinary 0 ev.createdAt.toUInt64.toNat ++ srl.uintToBinary 0 ev.tags.length ++
      ev.tags.flatMap (tagToBinary srl) ++ ev.id.bytes ++ ev.author.bytes ++ ev.sig.bytes ++
        [ev.refLevel])
  | .attachment att => 1 :: (att.id.bytes ++ att.data)

def getExtra : Str → UInt8 × Str
  | [] => (0, [])
  | r :: rest => (r, rest)

@[simp] theorem getExtra_cons (r : UInt8) (rest : Str) : getExtra (r :: rest) = (r, rest) := rfl

/-- `EventDocument::load_bin`: bytes past the end of the input stay unwritten. -/
def loadBin (unwritten : Binary n) (input : Str) : Binary n × Str :=
  (⟨input.take n ++ unwritten.bytes.drop (min n input.length), by
    simp [unwritten.size]⟩, input.drop n)

def stringsFromBinary (srl : StructuredDocument) : Nat → Str → List Str × Str
  | 0, input => ([], input)
  | n + 1, input =>
    let (x, input) := getExtra input
    let (s, input) := srl.stringFromBinary x input
    let (ss, input) := stringsFromBinary srl n input
    (s :: ss, input)

def tagsFromBinary (srl : StructuredDocument) : Nat → Str → List Tag × Str
  | 0, input => ([], input)
  | n + 1, input =>
    let (x, input) := getExtra input
    let (tag, input) := srl.stringFromBinary x input
    let (x, input) := getExtra input
    let (content, input) := srl.stringFromBinary x input
    let (x, input) := getExtra input
    let (addCount, input) := srl.uintFromBinary x input
    let (additionalContent, input) := stringsFromBinary srl addCount input
    let (ts, input) := tagsFromBinary srl n input
    (⟨tag, content, additionalContent⟩ :: ts, input)

/-- `EventDocument::from_binary`, with the input it leaves. `none` is the failed
`assert` of a build that keeps assertions (`ndebug = false`). -/
def fromBinary (ext : External) (srl : StructuredDocument) (ndebug : Bool) (mem : EventMemory)
    (input : Str) : Option (EventOrAttachment × Str) :=
  let (ex, input) := getExtra input
  if ex = 1 then
    let (id, input) := loadBin mem.id input
    some (.attachment ⟨id, input⟩, [])
  else
    let (x, input) := getExtra input
    let (content, input) := srl.stringFromBinary x input
    let nip97 := (x &&& 0x80) != 0
    let trusted := (x &&& 0x40) != 0
    let (x, input) := getExtra input
    let (kind, input) := srl.uintFromBinary x input
    let (x, input) := getExtra input
    let (createdAt, input) := srl.uintFromBinary x input
    let (x, input) := getExtra input
    let (tagCount, input) := srl.uintFromBinary x input
    let (tags, input) := tagsFromBinary srl tagCount input
    let (id, input) := loadBin mem.id input
    let (author, input) := loadBin mem.pubkey input
    let (sig, input) := loadBin mem.sig input
    let (refLevel, input) := getExtra input
    let ev : Event := { kind := UInt32.ofNat kind, content, tags,
                        createdAt := (UInt64.ofNat createdAt).toInt64,
                        id, author, sig, nip97, trusted, refLevel }
    if !ndebug && ev.calcId ext != ev.id then none
    else some (.event { ev with tagHashMap := buildHashMap ext.hasher tags }, input)

/-- The value `from_binary` gives back: the tag table is rebuilt. -/
def EventOrAttachment.reloaded (hasher : Str → UInt64) : EventOrAttachment → EventOrAttachment
  | .event ev => .event { ev with tagHashMap := buildHashMap hasher ev.tags }
  | .attachment att => .attachment att

def EventOrAttachment.Hashed (ext : External) : EventOrAttachment → Prop
  | .event ev => ev.calcId ext = ev.id
  | .attachment _ => True

theorem loadBin_append (u b : Binary n) (rest : Str) : loadBin u (b.bytes ++ rest) = (b, rest) := by
  have hb := b.size
  have h1 : (b.bytes ++ rest).take n = b.bytes := by rw [List.take_left' hb]
  have h2 : u.bytes.drop (min n (b.bytes ++ rest).length) = [] :=
    List.drop_of_length_le (by simp [u.size, hb])
  refine Prod.ext (Binary.ext ?_) (List.drop_left' hb)
  simp only [loadBin, h1, h2, List.append_nil]

/-- Reading a leading byte and then the value undoes an encoder. -/
theorem Inverts.read {encode : UInt8 → α → Str} {decode : UInt8 → Str → α × Str}
    (h : Inverts encode decode) (hx : extra &&& 0x3F = 0) (v : α) (rest : Str) :
    ∃ lead tail, getExtra (encode extra v ++ rest) = (lead, tail) ∧ lead &&& 0xC0 = extra ∧
      decode lead tail = (v, rest) := by
  obtain ⟨lead, body, he, hl, hd⟩ := h extra hx v
  exact ⟨lead, body ++ rest, by simp [he, getExtra], hl, hd rest⟩

theorem strings_round_trip {srl : StructuredDocument} (h : srl.Lawful) (ss : List Str)
    (rest : Str) :
    stringsFromBinary srl ss.length (ss.flatMap (srl.stringToBinary 0) ++ rest) = (ss, rest) := by
  induction ss with
  | nil => rfl
  | cons s ss ih =>
    obtain ⟨lead, tail, hg, _, hd⟩ := h.string_inverts.read (by decide : (0 : UInt8) &&& 0x3F = 0) s
      (ss.flatMap (srl.stringToBinary 0) ++ rest)
    simp only [List.length_cons, List.flatMap_cons, List.append_assoc,
      stringsFromBinary, hg, hd, ih]

theorem tags_round_trip {srl : StructuredDocument} (h : srl.Lawful) (ts : List Tag) (rest : Str) :
    tagsFromBinary srl ts.length (ts.flatMap (tagToBinary srl) ++ rest) = (ts, rest) := by
  have h0 : (0 : UInt8) &&& 0x3F = 0 := by decide
  induction ts with
  | nil => rfl
  | cons t ts ih =>
    obtain ⟨l1, r1, hg1, _, hd1⟩ :=
      h.string_inverts.read h0 t.tag (srl.stringToBinary 0 t.content ++
      (srl.uintToBinary 0 t.additionalContent.length ++
        (t.additionalContent.flatMap (srl.stringToBinary 0) ++
        (ts.flatMap (tagToBinary srl) ++ rest))))
    obtain ⟨l2, r2, hg2, _, hd2⟩ := h.string_inverts.read h0 t.content
      (srl.uintToBinary 0 t.additionalContent.length ++
        (t.additionalContent.flatMap (srl.stringToBinary 0) ++
        (ts.flatMap (tagToBinary srl) ++ rest)))
    obtain ⟨l3, r3, hg3, _, hd3⟩ := h.uint_inverts.read h0 t.additionalContent.length
      (t.additionalContent.flatMap (srl.stringToBinary 0) ++ (ts.flatMap (tagToBinary srl) ++ rest))
    simp only [List.length_cons, List.flatMap_cons, tagToBinary, List.append_assoc, tagsFromBinary,
      hg1, hd1, hg2, hd2, hg3, hd3, strings_round_trip h, ih]

/-- Both flags come back from the two bits left free in the leading byte. -/
theorem flag_bits (ev : Event) (hl : lead &&& 0xC0 = flagBits ev) :
    ((lead &&& 0x80) != 0) = ev.nip97 ∧ ((lead &&& 0x40) != 0) = ev.trusted := by
  have h8 : lead &&& 0x80 = (lead &&& 0xC0) &&& 0x80 := by rw [UInt8.and_assoc]; rfl
  have h4 : lead &&& 0x40 = (lead &&& 0xC0) &&& 0x40 := by rw [UInt8.and_assoc]; rfl
  rw [h8, h4, hl]
  cases hn : ev.nip97 <;> cases ht : ev.trusted <;> simp [flagBits, hn, ht] <;> decide

theorem flagBits_free (ev : Event) : flagBits ev &&& 0x3F = 0 := by
  cases hn : ev.nip97 <;> cases ht : ev.trusted <;> simp [flagBits, hn, ht] <;> decide

/-- An event comes back with nothing read past its end, whatever follows it. -/
theorem event_round_trip (ext : External) {srl : StructuredDocument} (h : srl.Lawful)
    (ndebug : Bool) (mem : EventMemory) (ev : Event) (rest : Str)
    (ha : ndebug = true ∨ ev.calcId ext = ev.id) :
    fromBinary ext srl ndebug mem (toBinary srl (.event ev) ++ rest) =
      some (.event { ev with tagHashMap := buildHashMap ext.hasher ev.tags }, rest) := by
  have h0 : (0 : UInt8) &&& 0x3F = 0 := by decide
  let blobs := ev.id.bytes ++ (ev.author.bytes ++ (ev.sig.bytes ++ (ev.refLevel :: rest)))
  let body := ev.tags.flatMap (tagToBinary srl) ++ blobs
  obtain ⟨l4, r4, hg4, _, hd4⟩ := h.uint_inverts.read h0 ev.tags.length body
  obtain ⟨l3, r3, hg3, _, hd3⟩ := h.uint_inverts.read h0 ev.createdAt.toUInt64.toNat
    (srl.uintToBinary 0 ev.tags.length ++ body)
  obtain ⟨l2, r2, hg2, _, hd2⟩ := h.uint_inverts.read h0 ev.kind.toNat
    (srl.uintToBinary 0 ev.createdAt.toUInt64.toNat ++ (srl.uintToBinary 0 ev.tags.length ++ body))
  obtain ⟨l1, r1, hg1, hf, hd1⟩ := h.string_inverts.read (flagBits_free ev) ev.content
    (srl.uintToBinary 0 ev.kind.toNat ++
      (srl.uintToBinary 0 ev.createdAt.toUInt64.toNat ++
        (srl.uintToBinary 0 ev.tags.length ++ body)))
  obtain ⟨hn, ht⟩ := flag_bits ev hf
  have hin : toBinary srl (.event ev) ++ rest = 0 :: (srl.stringToBinary (flagBits ev) ev.content ++
      (srl.uintToBinary 0 ev.kind.toNat ++
        (srl.uintToBinary 0 ev.createdAt.toUInt64.toNat ++
          (srl.uintToBinary 0 ev.tags.length ++ body)))) := by
    simp [toBinary, body, blobs]
  have hcheck : (!ndebug && Event.calcId ext { ev with tagHashMap := [] } != ev.id) = false := by
    rcases ha with rfl | ha
    · rfl
    · change (!ndebug && ev.calcId ext != ev.id) = false
      simp [ha]
  rw [hin]
  have hev : ¬ (0 : UInt8) = 1 := by decide
  simp only [fromBinary, getExtra_cons, hev, ↓reduceIte, hg1, hd1, hg2, hd2, hg3, hd3,
    hg4, hd4, hn, ht]
  simp only [body, blobs, tags_round_trip h, loadBin_append, getExtra_cons, UInt32.ofNat_toNat,
    UInt64.ofNat_toNat, Int64.toInt64_toUInt64, hcheck, Bool.false_eq_true, ↓reduceIte]

/-- An attachment comes back whole: its data runs to the end of the input. -/
theorem attachment_round_trip (ext : External) (srl : StructuredDocument) (ndebug : Bool)
    (mem : EventMemory) (att : Attachment) :
    fromBinary ext srl ndebug mem (toBinary srl (.attachment att)) =
      some (.attachment att, []) := by
  simp [fromBinary, toBinary, getExtra, loadBin_append]

/-- Every document comes back equal from its own bytes, all of them consumed, with
the tag table built from its tags. A build that keeps assertions asks for the id of
an event to be the hash of its fields, as it is for every event a parser accepted. -/
theorem binary_round_trip (ext : External) (srl : StructuredDocument) (h : srl.Lawful)
    (mem : EventMemory) (evatt : EventOrAttachment) :
    fromBinary ext srl true mem (toBinary srl evatt) = some (evatt.reloaded ext.hasher, []) ∧
    (evatt.Hashed ext →
      fromBinary ext srl false mem (toBinary srl evatt) =
        some (evatt.reloaded ext.hasher, [])) := by
  cases evatt with
  | event ev =>
    have hr ndebug := event_round_trip ext h ndebug mem ev []
    simp only [List.append_nil] at hr
    exact ⟨hr true (Or.inl rfl), fun hh => hr false (Or.inr hh)⟩
  | attachment att =>
    exact ⟨attachment_round_trip ext srl true mem att,
      fun _ => attachment_round_trip ext srl false mem att⟩

/-- Seven bits to a byte, least significant first; the top bit says that more follow. -/
def varint (v : Nat) : Str :=
  if v < 128 then [UInt8.ofNat v] else UInt8.ofNat (v % 128 + 128) :: varint (v / 128)

def readVarint : Str → Nat × Str
  | [] => (0, [])
  | b :: rest =>
    if b < 128 then (b.toNat, rest)
    else
      let (v, rest) := readVarint rest
      (b.toNat - 128 + 128 * v, rest)

theorem varint_round_trip (v : Nat) (rest : Str) : readVarint (varint v ++ rest) = (v, rest) := by
  induction v using Nat.strongRecOn with
  | _ v ih =>
    rw [varint]
    split
    · rename_i h
      have hb : UInt8.ofNat v < 128 := by
        rw [UInt8.lt_iff_toNat_lt]
        simp
        omega
      simp [readVarint, hb]
      omega
    · rename_i h
      have hb : ¬ UInt8.ofNat (v % 128 + 128) < 128 := by
        rw [UInt8.lt_iff_toNat_lt]
        simp
        omega
      have hn : (UInt8.ofNat (v % 128 + 128)).toNat = v % 128 + 128 := by simp; omega
      simp only [List.cons_append, readVarint, hb, ↓reduceIte, ih (v / 128) (by omega), hn]
      refine Prod.ext ?_ rfl
      change v % 128 + 128 - 128 + 128 * (v / 128) = v
      omega

/-- A lawful encoding: the caller's bits alone in the leading byte, then the number
or the length and the characters. -/
def varintDocument : StructuredDocument where
  stringToBinary extra s := extra :: (varint s.length ++ s)
  uintToBinary extra v := extra :: varint v
  stringFromBinary _ input :=
    let (n, input) := readVarint input
    (input.take n, input.drop n)
  uintFromBinary _ input := readVarint input

theorem free_bits_masked (extra : UInt8) (h : extra &&& 0x3F = 0) : extra &&& 0xC0 = extra := by
  revert h
  exact forall_byte (p := fun e => e &&& 0x3F = 0 → e &&& 0xC0 = e) (by decide +kernel) extra

theorem varintDocument_lawful : varintDocument.Lawful where
  string_inverts extra hx s := by
    refine ⟨extra, varint s.length ++ s, rfl, free_bits_masked extra hx, ?_⟩
    intro rest
    simp [varintDocument, varint_round_trip]
  uint_inverts extra hx v := ⟨extra, varint v, rfl, free_bits_masked extra hx, varint_round_trip v⟩

/-- The same author's reply to the note, as the server stores it of an authenticated user, and
its canonical text. -/
def taggedReply : Event := Event.parsed
  { kind := 1, createdAt := 1700000002, content := str "hi"
    tags := [⟨str "e", note.id.toHex, [str "wss://a.b", str "reply"]⟩, ⟨str "t", str "x", []⟩]
    id := .ofNat 0xf476c94ca5b931037fd2e04839e8a717a69eacd2cdcf05917c92ed202987374e
    author := note.author
    sig := .ofNat 0x5dc1da605e6c0d7ec7722364ff225c2faad0e9790d7aad7ba1674a8266d166676d385a3d184be46757ff35328a4e343bb7248ba09259315b819134d474a4c879
    trusted := true }

def taggedReplyText : Str :=
  str "[0,\"f9308a019258c31049344f85f89d5229b531c845836f99b08601f113bce036f9\",1700000002,1," ++
    str "[[\"e\",\"9560462663421aa1f41a817b052e43987b465cca609fe3b642d5f792e4c939b6\"," ++
      str "\"wss://a.b\",\"reply\"],[\"t\",\"x\"]],\"hi\"]"

/-- The reply comes back from a build that keeps assertions. -/
theorem note_round_trip : varintDocument.Lawful ∧
    fromBinary (tabled [(taggedReplyText, taggedReply.id)] [] []) varintDocument false
      ⟨.ofNat 0, .ofNat 0, .ofNat 0⟩
      (toBinary varintDocument (.event taggedReply)) = some (.event taggedReply, []) := by
  have hid : taggedReply.calcId (tabled [(taggedReplyText, taggedReply.id)] [] []) =
      taggedReply.id := by decide +kernel
  exact ⟨varintDocument_lawful,
    (binary_round_trip (tabled [(taggedReplyText, taggedReply.id)] [] []) varintDocument
      varintDocument_lawful ⟨.ofNat 0, .ofNat 0, .ofNat 0⟩ (.event taggedReply)).2 hid⟩

end NostrServer
