import NostrServer.Removal

namespace NostrServer
open Docdb

variable {rl : Relay}

/-- Some `e` tag of the request spells the id of the event, which is of the same author. -/
def Event.NamesOwn (D e : Event) : Prop := e.author = D.author ∧ ∃ t ∈ D.forEachTag (str "e"),
    Spells t.content e.id

instance (D e : Event) : Decidable (D.NamesOwn e) := inferInstanceAs (Decidable (_ ∧ _))

namespace App

def Stores (a : App rl) (d : EventOrAttachment) : Prop := ∃ i, (i, d) ∈ a.records

/-- What the request names is gone, and nothing else; the request is stored if there was
anything. -/
def DeletedNamed (a a' : App rl) (D : Event) : Prop := ∀ d, a'.Stores d ↔
  (a.Stores d ∧ ∀ e, d = .event e → ¬ D.NamesOwn e) ∨
  (d = .event D ∧ ∃ e, a.Stores (.event e) ∧ D.NamesOwn e)

/-- The events that a request may take down are those it names. -/
def NamesTarget (a : App rl) (D : Event) (target : ID) : Prop :=
  ∀ e, a.Stores (.event e) → e ≠ D → (D.NamesOwn e ↔ e.id = target ∧ e.author = D.author)

/-- A request that finds nothing. -/
theorem deletedNamed_idle (a : App rl) (D : Event) {target : ID}
    (hno : ∀ e, a.Stores (.event e) → e.id ≠ target) :
    a.DeletedNamed a D ↔ a.NamesTarget D target := by
  constructor
  · intro h e he hne
    have hunnamed : ¬ D.NamesOwn e := by
      intro hn
      rcases (h (.event e)).mp he with ⟨_, hall⟩ | ⟨hD, _⟩
      · exact hall e rfl hn
      · exact hne (EventOrAttachment.event.inj hD)
    simp [hunnamed, hno e he]
  · intro h d
    have named {e : Event} (he : a.Stores (.event e)) (hn : D.NamesOwn e) : e = D := by
      by_contra hne
      exact hno e he ((h e he hne).mp hn).1
    constructor
    · intro hd
      by_cases hn : ∃ e, d = .event e ∧ D.NamesOwn e
      · obtain ⟨e, rfl, hn⟩ := hn
        exact Or.inr ⟨by rw [named hd hn], e, hd, hn⟩
      · exact Or.inl ⟨hd, fun e he hne => hn ⟨e, he, hne⟩⟩
    · intro hd
      rcases hd with ⟨hd, _⟩ | ⟨rfl, e, he, hn⟩
      · exact hd
      · exact named he hn ▸ he

/-- A request that is put in the place of an event. -/
theorem deletedNamed_put {a a' : App rl} {D e : Event} {target : ID}
    (hstores : ∀ d, a'.Stores d ↔ d = .event D ∨ (a.Stores d ∧ d ≠ .event e))
    (he : a.Stores (.event e))
    (htarget : ∀ x, a.Stores (.event x) → (x.id = target ∧ x.author = D.author ↔ x = e))
    (honly : a.Stores (.event D) → D = e) : a.DeletedNamed a' D ↔ a.NamesTarget D target := by
  constructor
  · intro h
    -- what stays is not named, unless it is the request
    have gone {x : Event} (hx : a.Stores (.event x)) (hne : x ≠ D) (hn : D.NamesOwn x) : x = e := by
      by_contra hxe
      have hstays : a'.Stores (.event x) :=
        (hstores _).mpr (Or.inr ⟨hx, fun heq => hxe (EventOrAttachment.event.inj heq)⟩)
      rcases (h _).mp hstays with ⟨_, hall⟩ | ⟨hD, _⟩
      · exact hall x rfl hn
      · exact hne (EventOrAttachment.event.inj hD)
    intro x hx hne
    rw [htarget x hx]
    constructor
    · exact gone hx hne
    · rintro rfl
      rcases (h (.event D)).mp ((hstores _).mpr (Or.inl rfl)) with ⟨hD, _⟩ | ⟨_, y, hy, hn⟩
      · exact absurd (honly hD).symm hne
      · by_cases hyD : y = D
        · exact absurd (honly (hyD ▸ hy)).symm hne
        · exact gone hy hyD hn ▸ hn
  · intro h d
    have unnamed {x : Event} (hx : a.Stores (.event x)) (hne : x ≠ e) : ¬ D.NamesOwn x := by
      intro hn
      by_cases hD : x = D
      · exact hne (hD.trans (honly (hD ▸ hx)))
      · exact hne ((htarget x hx).mp ((h x hx hD).mp hn))
    have hnamed (hne : e ≠ D) : D.NamesOwn e := (h e he hne).mpr ((htarget e he).mpr rfl)
    rw [hstores]
    constructor
    · intro hd
      rcases hd with rfl | ⟨hd, hde⟩
      · by_cases heD : e = D
        · subst heD
          by_cases hn : e.NamesOwn e
          · exact Or.inr ⟨rfl, e, he, hn⟩
          · exact Or.inl ⟨he, fun x hx => EventOrAttachment.event.inj hx ▸ hn⟩
        · exact Or.inr ⟨rfl, e, he, hnamed heD⟩
      · refine Or.inl ⟨hd, ?_⟩
        rintro x rfl
        exact unnamed hd (fun heq => hde (congrArg _ heq))
    · intro hd
      rcases hd with ⟨hd, hall⟩ | ⟨hD, _⟩
      · by_cases hde : d = .event e
        · by_cases heD : e = D
          · exact Or.inl (heD ▸ hde)
          · exact absurd (hnamed heD) (hall e hde)
        · exact Or.inr ⟨hd, hde⟩
      · exact Or.inl hD

end App

namespace Session

/-- A request that goes through deletes the events it names, and no others, exactly when
those are the author's events that have the id the code reads. -/
theorem eventDeletion_named (s : Session rl) (hv : s.app.Valid) (mem : Memory)
    (self : Nat) (D : Event) (hok : s.eventDeletion mem self D = .ok s') :
    s.app.DeletedNamed s'.app D ↔ s.app.NamesTarget D (deletionTarget mem D) := by
  rcases s.eventDeletion_spec hv mem self D with ⟨hno, hd⟩ | ⟨_, _, _, _, _, hd⟩ |
    ⟨i, e, hi, hid, hauth, ⟨hd, _⟩ | ⟨a, new, hd, w, _⟩⟩
  · cases hd.symm.trans hok
    apply s.app.deletedNamed_idle D
    intro e he
    obtain ⟨i, hi⟩ := he
    exact hno i e hi
  · cases hd.symm.trans hok
  · cases hd.symm.trans hok
  · cases hd.symm.trans hok
    have hone {j : DocID} (hj : (j, .event e) ∈ s.app.records) :
        j = i := (hv.same_event hj hi rfl).1
    refine App.deletedNamed_put (e := e) (fun d => ?_) ⟨i, hi⟩ (fun x hx => ?_) (fun hD => ?_)
    · constructor
      · intro ⟨j, hj⟩
        rcases (w.mem _).mp hj with heq | ⟨hj, hne⟩
        · exact Or.inl (Prod.mk.inj heq).2
        · exact Or.inr ⟨⟨j, hj⟩, fun hde => hne (hone (hde ▸ hj))⟩
      · intro hd
        rcases hd with rfl | ⟨⟨j, hj⟩, hne⟩
        · exact ⟨new, (w.mem _).mpr (Or.inl rfl)⟩
        · refine ⟨j, (w.mem _).mpr (Or.inr ⟨hj, fun hji => hne ?_⟩)⟩
          exact (Prod.mk.inj (same_record s.app.ids_nodup hj hi hji)).2
    · obtain ⟨j, hj⟩ := hx
      constructor
      · intro ⟨hxid, _⟩
        exact (hv.same_event hj hi (hxid.trans hid.symm)).2
      · rintro rfl
        exact ⟨hid, hauth⟩
    · obtain ⟨j, hj⟩ := hD
      have hji : j = i := by
        by_contra hne
        exact w.free ⟨.ids D.id, id_key _ D, _, hj, hne, id_key _ D⟩
      exact EventOrAttachment.event.inj (Prod.mk.inj (same_record s.app.ids_nodup hj hi hji)).2

end Session

namespace Server

theorem session_same (sv : Server rl) (p : Peer) : (sv.session p).app.Same sv.app := App.Same.rfl

/-- In every reachable state a request that goes through deletes just what its tags name,
exactly when the events of its author that some tag names are those that the last one
names. -/
theorem deletion_covers_iff (inputs : List Input) (s : Session rl)
    (hs : s.app.Same (run rl inputs).app) (mem : Memory) (self : Nat) (D : Event)
    (hok : s.eventDeletion mem self D = .ok s') :
    s.app.DeletedNamed s'.app D ↔ ∀ e, s.app.Stores (.event e) → e ≠ D →
      (D.NamesOwn e ↔ e.id = fromHex mem.deletion (D.getTagContent (str "e")) ∧
        e.author = D.author) :=
  Session.eventDeletion_named s (hs.valid (run_regular inputs).valid) mem self D hok

def bothDeletion : Event := Event.parsed
  { kind := 5, createdAt := 1700000100
    tags := [⟨str "e", note.id.toHex, []⟩, ⟨str "e", laterNote.id.toHex, []⟩]
    id := .ofNat 0x960cdd875b7a33c0728514f4d0b6afaeac30d0692aca5ba3a07b956595847825
    author := note.author
    sig := .ofNat 0x85cf18111081111b2cfce91a777756cb9aeef8bcb5eb3197c546963da08e551cf43e68d618708b7f1f681a121b0b567a2c3bdcb9a2942cfc7f0c42940cdc72b0 }

def bothDeletionText : Str :=
  str "[0,\"f9308a019258c31049344f85f89d5229b531c845836f99b08601f113bce036f9\",1700000100,5,[[\"e\",\"9560462663421aa1f41a817b052e43987b465cca609fe3b642d5f792e4c939b6\"],[\"e\",\"a302563da9ecabf89e26ebf722aefeed1bd2c79f22a53b3e3809fc2c438de2c2\"]],\"\"]"

def laterMessage : Structured := laterNote.command "EVENT" laterNote.id.toHex

def notesRelay : Relay :=
  sampleRelay {} [(noteText, note), (laterNoteText, laterNote), (bothDeletionText, bothDeletion),
    (noteDeletionText, noteDeletion)] [noteMessage, laterMessage]

def notesSent : List Input :=
  [arrival, noteMessage.sent Memory.zeros, laterMessage.sent Memory.zeros]

def notesHeld : Session notesRelay := (run notesRelay notesSent).session newPeer

/-- Only the event that the last tag names is deleted. -/
theorem first_named_stays : bothDeletion.verify notesRelay.ext = true ∧ ∃ s',
    notesHeld.eventDeletion Memory.zeros 0 bothDeletion = .ok s' ∧
    ¬ notesHeld.app.DeletedNamed s'.app bothDeletion := by
  refine ⟨by decide +kernel, ?_⟩
  have hdone : (notesHeld.eventDeletion Memory.zeros 0 bothDeletion).toOption.any (fun s' =>
      s'.app.records = [(3, .event bothDeletion), (1, .event note)]) = true := by decide +kernel
  obtain ⟨s', hs', hrecords⟩ := (Option.any_eq_true _ _).mp hdone
  refine ⟨s', ok_of_toOption hs', fun h => ?_⟩
  have hstays : s'.app.Stores (.event note) := ⟨1, by rw [of_decide_eq_true hrecords]; simp⟩
  rcases (h _).mp hstays with ⟨_, hall⟩ | ⟨hD, _⟩
  · exact hall note rfl (by decide +kernel)
  · exact absurd hD (by decide +kernel)

/-- A request that names one of them deletes that one. -/
theorem one_named_deleted : ∃ s', notesHeld.eventDeletion Memory.zeros 0 noteDeletion = .ok s' ∧
    notesHeld.app.DeletedNamed s'.app noteDeletion := by
  have hdone : (notesHeld.eventDeletion Memory.zeros 0 noteDeletion).toOption.isSome = true := by
    decide +kernel
  obtain ⟨s', hs'⟩ := Option.isSome_iff_exists.mp hdone
  have hrecords : notesHeld.app.records = [(2, .event laterNote), (1, .event note)] := by
    decide +kernel
  refine ⟨s', ok_of_toOption hs',
    (deletion_covers_iff notesSent notesHeld (session_same _ _) Memory.zeros 0 noteDeletion
    (ok_of_toOption hs')).mpr (fun e he _ => ?_)⟩
  obtain ⟨i, hi⟩ := he
  rw [hrecords] at hi
  rcases List.mem_pair.mp hi with heq | heq
  · obtain rfl := EventOrAttachment.event.inj (Prod.mk.inj heq).2
    decide +kernel
  · obtain rfl := EventOrAttachment.event.inj (Prod.mk.inj heq).2
    decide +kernel

end Server

end NostrServer
