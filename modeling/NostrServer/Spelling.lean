import NostrServer.Parsing

namespace NostrServer

/-- The array begins with the bytes the text spells. -/
def Begins (text : Str) (b : Binary n) : Prop := (spelled text).take n <+: b.bytes

instance (text : Str) (b : Binary n) : Decidable (Begins text b) :=
  inferInstanceAs (Decidable (_ <+: _))

/-- What `from_hex` can return for a text: every array that begins so. -/
theorem begins_iff (text : Str) (b : Binary n) : Begins text b ↔ ∃ u, fromHex u text = b := by
  constructor
  · intro h
    refine ⟨b, Binary.ext ?_⟩
    have hlen : ((spelled text).take n).length = min n (spelled text).length := List.length_take
    rw [fromHex_bytes, ← hlen]
    exact List.prefix_iff_eq_append.mp h
  · rintro ⟨u, rfl⟩
    rw [Begins, fromHex_bytes]
    exact List.prefix_append _ _

/-- What the parser reads of a JSON, with the texts of the arrays. -/
structure EventTexts where
  id : Str
  pubkey : Str
  sig : Str
  content : Str
  createdAt : Int64
  kind : UInt32
  tags : List Tag

/-- `Event::fromStructured` up to the arrays. -/
def readTexts (ext : External) (s : Structured) : Except Exn EventTexts :=
  match s.field (str "id") with
  | .string id =>
    match s.field (str "content") with
    | .string content =>
      match s.field (str "sig") with
      | .string sig =>
        if !ext.containsTime (s.field (str "created_at")) then .error (.eventParse .fieldCreatedAt)
        else if !ext.containsUnsigned (s.field (str "kind")) then .error (.eventParse .fieldKind)
        else
          match s.field (str "pubkey") with
          | .string pubkey =>
            let sTags := s.field (str "tags")
            if sTags.defined && !sTags.isArray then .error (.eventParse .fieldTags)
            else
              match ext.asTime (s.field (str "created_at")),
                ext.asUnsigned (s.field (str "kind")) with
              | some createdAt, some kind =>
                match tagsFromStructured ext sTags.items with
                | .error e => .error e
                | .ok tags => .ok { id, pubkey, sig, content, createdAt, kind, tags }
              | _, _ => .error .badCast
          | _ => .error (.eventParse .fieldPubkey)
      | _ => .error (.eventParse .fieldSignature)
    | _ => .error (.eventParse .fieldContent)
  | _ => .error (.eventParse .fieldId)

def EventTexts.event (p : EventTexts) (id : ID) (author : Pubkey) (sig : Signature) : Event :=
  { kind := p.kind, content := p.content, tags := p.tags, createdAt := p.createdAt,
    id, author, sig }

def EventTexts.hashed (ext : External) (p : EventTexts) (author : Pubkey) : ID :=
  (p.event (Binary.replicate 32 0) author (Binary.replicate 64 0)).calcId ext

theorem EventTexts.calcId_event (ext : External) (p : EventTexts) (id : ID) (author : Pubkey)
    (sig : Signature) :
    (p.event id author sig).calcId ext = p.hashed ext author := rfl

theorem fromStructured_texts (ext : External) (mem : EventMemory) (s : Structured) :
    Event.fromStructured ext mem s =
    match readTexts ext s with
    | .error e => .error e
    | .ok p =>
      let ev := p.event (fromHex mem.id p.id) (fromHex mem.pubkey p.pubkey) (fromHex mem.sig p.sig)
      if ev.calcId ext ≠ ev.id then .error (.eventParse .invalidId)
      else .ok { ev with tagHashMap := buildHashMap ext.hasher p.tags } := by
  unfold Event.fromStructured readTexts
  cases s.field (str "id") with
  | string id =>
    cases s.field (str "content") with
    | string content =>
      cases s.field (str "sig") with
      | string sig =>
        dsimp only
        cases ext.containsTime (s.field (str "created_at")) with
        | false => rfl
        | true =>
          cases ext.containsUnsigned (s.field (str "kind")) with
          | false => rfl
          | true =>
            cases s.field (str "pubkey") with
            | string pubkey =>
              cases (s.field (str "tags")).defined && !(s.field (str "tags")).isArray with
              | true => rfl
              | false =>
                cases ext.asTime (s.field (str "created_at")) with
                | none => rfl
                | some createdAt =>
                  cases ext.asUnsigned (s.field (str "kind")) with
                  | none => rfl
                  | some kind =>
                    cases tagsFromStructured ext (s.field (str "tags")).items <;> rfl
            | _ => rfl
      | _ => rfl
    | _ => rfl
  | _ => rfl

/-- The texts are those of the JSON. -/
theorem readTexts_fields (h : readTexts ext s = .ok p) : s.field (str "id") = .string p.id ∧
    s.field (str "pubkey") = .string p.pubkey ∧ s.field (str "sig") = .string p.sig := by
  unfold readTexts at h
  split at h
  · rename_i hid
    split at h
    · split at h
      · rename_i hsig
        split at h
        · cases h
        split at h
        · cases h
        split at h
        · rename_i hpubkey
          dsimp only at h
          repeat' split at h
          all_goals cases h
          exact ⟨hid, hpubkey, hsig⟩
        · cases h
      · cases h
    · cases h
  · cases h

/-- Some unwritten memory lets the event in: an author that begins as the key's text
spells hashes to an id that begins as the id's text spells. -/
def EventTexts.Acceptable (ext : External) (p : EventTexts) : Prop :=
  ∃ author, Begins p.pubkey author ∧ Begins p.id (p.hashed ext author)

theorem accepted_texts (h : Event.fromStructured ext mem s = .ok ev) :
    ∃ p, readTexts ext s = .ok p ∧
    ev.id = fromHex mem.id p.id ∧ ev.author = fromHex mem.pubkey p.pubkey ∧
    ev.sig = fromHex mem.sig p.sig ∧
    p.hashed ext ev.author = ev.id := by
  rw [fromStructured_texts] at h
  split at h
  · cases h
  · rename_i p hp
    dsimp only at h
    split at h
    · cases h
    · rename_i hid
      cases h
      exact ⟨p, hp, rfl, rfl, rfl, Classical.not_not.mp hid⟩

theorem acceptable_iff (hp : readTexts ext s = .ok p) :
    p.Acceptable ext ↔ ∃ mem ev, Event.fromStructured ext mem s = .ok ev := by
  constructor
  · rintro ⟨author, hauthor, hid⟩
    obtain ⟨u, rfl⟩ := (begins_iff _ _).mp hauthor
    obtain ⟨v, hv⟩ := (begins_iff _ _).mp hid
    refine ⟨⟨v, u, Binary.replicate 64 0⟩, ?_⟩
    rw [fromStructured_texts, hp]
    simp only [EventTexts.calcId_event, hv]
    simp [EventTexts.event]
  · rintro ⟨mem, ev, h⟩
    obtain ⟨p', hp', hid, hauthor, _, hhash⟩ := accepted_texts h
    cases hp.symm.trans hp'
    exact ⟨ev.author, (begins_iff _ _).mpr ⟨_, hauthor.symm⟩,
      (begins_iff _ _).mpr ⟨_, by rw [hhash, hid]⟩⟩

/-- The three texts are digits through and through, of the right number. -/
structure EventTexts.SpelledOut (p : EventTexts) : Prop where
  id : HexText 32 p.id
  pubkey : HexText 32 p.pubkey
  sig : HexText 64 p.sig

/-- The parser takes the JSON only with its keys spelled out, and gives them back in
lower case. -/
def KeysSpelled (ext : External) (s : Structured) : Prop :=
  ∀ mem ev, Event.fromStructured ext mem s = .ok ev →
  ∃ id pubkey sig, s.field (str "id") = .string id ∧ s.field (str "pubkey") = .string pubkey ∧
    s.field (str "sig") = .string sig ∧ HexText 32 id ∧ HexText 32 pubkey ∧ HexText 64 sig ∧
    ev.toStructured.field (str "id") = .string (id.map asciiLower) ∧
    ev.toStructured.field (str "pubkey") = .string (pubkey.map asciiLower) ∧
    ev.toStructured.field (str "sig") = .string (sig.map asciiLower)

/-- An array read from digits is spelled with the same digits in lower case. -/
theorem HexText.givenBack (h : HexText n text) (u : Binary n) :
    (fromHex u text).toHex = text.map asciiLower :=
  ((fromHex_eq_iff h u _).mp rfl).symm

theorem keysSpelled_of_spelledOut (h : ∀ p, readTexts ext s = .ok p → p.Acceptable ext →
    p.SpelledOut) : KeysSpelled ext s := by
  intro mem ev hev
  obtain ⟨p, hp, hid, hauthor, hsig, _⟩ := accepted_texts hev
  obtain ⟨htid, htpubkey, htsig⟩ := readTexts_fields hp
  obtain ⟨hsid, hspubkey, hssig⟩ := h p hp ((acceptable_iff hp).mpr ⟨mem, ev, hev⟩)
  obtain ⟨_, hfid, hfpubkey, hfsig, _⟩ := toStructured_fields ev
  refine ⟨p.id, p.pubkey, p.sig, htid, htpubkey, htsig, hsid, hspubkey, hssig, ?_, ?_, ?_⟩
  · rw [hfid, hid, hsid.givenBack]
  · rw [hfpubkey, hauthor, hspubkey.givenBack]
  · rw [hfsig, hsig, hssig.givenBack]

theorem not_keysSpelled (hp : readTexts ext s = .ok p) (ha : p.Acceptable ext)
    (hs : ¬ p.SpelledOut) : ¬ KeysSpelled ext s := by
  intro h
  obtain ⟨mem, ev, hev⟩ := (acceptable_iff hp).mp ha
  obtain ⟨id, pubkey, sig, hid, hpubkey, hsig, hsid, hspubkey, hssig, _⟩ := h mem ev hev
  obtain ⟨htid, htpubkey, htsig⟩ := readTexts_fields hp
  cases hid.symm.trans htid
  cases hpubkey.symm.trans htpubkey
  cases hsig.symm.trans htsig
  exact hs ⟨hsid, hspubkey, hssig⟩

/-- The keys are spelled out exactly where a JSON with other texts is refused for what its
hash covers: no author that begins as the key's text has an id that begins as the id's. -/
theorem keys_spelled_iff (ext : External) (s : Structured) : KeysSpelled ext s ↔
    ∀ p, readTexts ext s = .ok p →
      (∃ author, Begins p.pubkey author ∧ Begins p.id (p.hashed ext author)) → p.SpelledOut := by
  constructor
  · intro h p hp ha
    by_contra hs
    exact not_keysSpelled hp ha hs h
  · exact keysSpelled_of_spelledOut

def unsignedNote : Structured :=
  .object [(str "id", .string note.id.toHex), (str "pubkey", .string note.author.toHex),
    (str "sig", .string []), (str "content", .string []), (str "kind", .int 1),
    (str "created_at", .int 1700000000)]

theorem unsigned_note_accepted :
    ¬ KeysSpelled (tabled [(noteText, note.id)] [] []) unsignedNote := by
  have hread : readTexts (tabled [(noteText, note.id)] [] []) unsignedNote = .ok
      { id := note.id.toHex, pubkey := note.author.toHex, sig := [], content := [],
        createdAt := 1700000000, kind := 1
        tags := [] } := by rfl
  refine not_keysSpelled hread ?_ (fun h => absurd h.sig (by decide))
  exact ⟨note.author, by decide +kernel, by decide +kernel⟩

end NostrServer
