import NostrServer.Reference

namespace NostrServer

/-- A number that was put into a JSON value is read back from it. -/
structure External.KeepsNumbers (ext : External) : Prop where
  containsTime : ∀ t : Int64, ext.containsTime (.int t.toInt) = true
  asTime : ∀ t : Int64, ext.asTime (.int t.toInt) = some t
  containsUnsigned : ∀ n : UInt32, ext.containsUnsigned (.int n.toNat) = true
  asUnsigned : ∀ n : UInt32, ext.asUnsigned (.int n.toNat) = some n

theorem fromHex_toHex (unwritten b : Binary n) : fromHex unwritten b.toHex = b :=
  b.spells_toHex.names.2 unwritten

/-- Every field is found under its name. -/
theorem toStructured_fields (ev : Event) :
    ev.toStructured.field (str "content") = .string ev.content ∧
    ev.toStructured.field (str "id") = .string ev.id.toHex ∧
    ev.toStructured.field (str "pubkey") = .string ev.author.toHex ∧
    ev.toStructured.field (str "sig") = .string ev.sig.toHex ∧
    ev.toStructured.field (str "kind") = .int ev.kind.toNat ∧
    ev.toStructured.field (str "created_at") = .int ev.createdAt.toInt ∧
    ev.toStructured.field (str "tags") = buildTags ev := by
  refine ⟨?_, ?_, ?_, ?_, ?_, ?_, ?_⟩ <;> rfl

theorem texts_read (ext : External) (texts : List Str) :
    (texts.map Structured.string).mapM ext.asString = some texts := by
  induction texts with
  | nil => rfl
  | cons t texts ih => simp [ext.asString_string, ih]

def Tag.row (t : Tag) : Structured :=
  .array (.string t.tag :: .string t.content :: t.additionalContent.map .string)

theorem tag_read (ext : External) (t : Tag) : tagFromStructured ext t.row = .ok t := by
  have htexts := texts_read ext t.additionalContent
  simp [tagFromStructured, Tag.row, Structured.isArray, Structured.items, Structured.item, htexts]

theorem tags_read (ext : External) (tags : List Tag) :
    tagsFromStructured ext (tags.map Tag.row) = .ok tags := by
  induction tags with
  | nil => rfl
  | cons t tags ih => simp [tagsFromStructured, tag_read, ih]

def Event.reread (hasher : Str → UInt64) (ev : Event) : Event :=
  { kind := ev.kind, content := ev.content, tags := ev.tags, createdAt := ev.createdAt, id := ev.id,
    author := ev.author, sig := ev.sig, tagHashMap := buildHashMap hasher ev.tags }

theorem fromStructured_toStructured {ext : External} (h : ext.KeepsNumbers) (ev : Event)
    (hid : ev.calcId ext = ev.id) (mem : EventMemory) :
    Event.fromStructured ext mem ev.toStructured = .ok (ev.reread ext.hasher) := by
  obtain ⟨hcontent, hidText, hpubkey, hsig, hkind, htime, htags⟩ := toStructured_fields ev
  have hrows : (buildTags ev).items = ev.tags.map Tag.row := rfl
  have harray : ((buildTags ev).defined && !(buildTags ev).isArray) = false := rfl
  have hread : Event.calcId ext
      { kind := ev.kind, content := ev.content, tags := ev.tags, createdAt := ev.createdAt,
        id := ev.id, author := ev.author, sig := ev.sig } = ev.id := hid
  simp [Event.fromStructured, hcontent, hidText, hpubkey, hsig, hkind, htime, htags, harray,
    hrows, tags_read, h.containsTime, h.asTime, h.containsUnsigned, h.asUnsigned, fromHex_toHex,
    hread, Event.reread]

/-- An event whose id is its hash comes back the same from its JSON value, whatever the
arrays held, and every event that is parsed has its hash for an id. -/
theorem structured_round_trip (ext : External) (h : ext.KeepsNumbers) :
    (∀ ev : Event, ev.calcId ext = ev.id → ∀ mem, ∃ ev',
      Event.fromStructured ext mem ev.toStructured = .ok ev' ∧
      ev'.id = ev.id ∧ ev'.author = ev.author ∧ ev'.sig = ev.sig ∧ ev'.kind = ev.kind ∧
      ev'.createdAt = ev.createdAt ∧ ev'.content = ev.content ∧ ev'.tags = ev.tags) ∧
    ∀ mem s ev, Event.fromStructured ext mem s = .ok ev → ev.calcId ext = ev.id := by
  constructor
  · intro ev hid mem
    exact ⟨_, fromStructured_toStructured h ev hid mem, rfl, rfl, rfl, rfl, rfl, rfl, rfl⟩
  · intro mem s ev hparsed
    exact (Event.fromStructured_ok hparsed).1

def answer : Event := Event.parsed
  { kind := 1, createdAt := 1700000003, content := str "an \"answer\""
    tags := [⟨str "t", str "nostr", []⟩, ⟨str "e", note.id.toHex, [[], str "reply"]⟩]
    id := .ofNat 0xd5184f79fbc612dec4afcbf32c6c8d408f868cd6158b83394ad63698b2dc56ea
    author := note.author
    sig := .ofNat 0xf21211f9928154f745aaaf8aad813d8fb91a1094a96235a0d127dec9407286333656f217517ad488b664090e9af49680244c7fd5f387f392900f1663d87f653a }

def answerText : Str :=
  str "[0,\"f9308a019258c31049344f85f89d5229b531c845836f99b08601f113bce036f9\",1700000003,1,[[\"t\",\"nostr\"],[\"e\",\"9560462663421aa1f41a817b052e43987b465cca609fe3b642d5f792e4c939b6\",\"\",\"reply\"]],\"an \\\"answer\\\"\"]"

theorem tabled_keepsNumbers (digests : List (Str × Binary 32))
    (signatures : List (Binary 32 × Binary 32 × Binary 64)) (texts : List Structured) :
    (tabled digests signatures texts).KeepsNumbers where
  containsTime t := rfl
  asTime t := congrArg some (Int64.ofInt_toInt t)
  containsUnsigned n := by simp [tabled]
  asUnsigned n := by simp [tabled]

theorem answer_round_trip : ∃ ev', Event.fromStructured (tabled [(answerText, answer.id)] [] [])
    ⟨.ofNat 0, .ofNat 0, .ofNat 0⟩ answer.toStructured = .ok ev' ∧ ev'.id = answer.id ∧
    ev'.author = answer.author ∧
    ev'.sig = answer.sig ∧ ev'.kind = answer.kind ∧ ev'.createdAt = answer.createdAt ∧
    ev'.content = answer.content ∧
    ev'.tags = answer.tags :=
  (structured_round_trip _ (tabled_keepsNumbers _ _ _)).1 answer (by decide +kernel) _

end NostrServer
