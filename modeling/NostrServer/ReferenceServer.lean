import NostrServer.Reference
import NostrServer.Server

namespace NostrServer
open Docdb

def plainRelay (ext : External) (options : ServerOptions) : Relay where
  engine := plainEngine ext
  options
  db := plainStorage EventOrAttachment UniqueKey (uniqueKeys ext) autocompact

def Memory.zeros : Memory where
  event := ⟨.ofNat 0, .ofNat 0, .ofNat 0⟩
  target := .ofNat 0
  deletion := .ofNat 0
  attachment := .ofNat 0
  retrieved := .ofNat 0
  filters _ _ _ := .ofNat 0
  index _ := .zeros

/-- `Event::toStructured`, with the id in the text it came in. -/
def Event.message (ev : Event) (id : Str) : Structured :=
  .object [(str "content", .string ev.content), (str "id", .string id),
    (str "pubkey", .string ev.author.toHex), (str "sig", .string ev.sig.toHex),
    (str "kind", .int ev.kind.toNat), (str "created_at", .int ev.createdAt.toInt),
    (str "tags", buildTags ev)]

theorem message_id (ev : Event) (id : Str) : (ev.message id).field (str "id") = .string id := by
  have h : (str "id" == str "content") = false := by decide +kernel
  simp [Event.message, Structured.field, List.lookup_cons, h]

def Event.command (ev : Event) (cmd : String) (id : Str) : Structured :=
  .array [.string (str cmd), ev.message id]

/-- A server that knows the hashes and signatures of the events listed with their
canonical texts, and parses the messages listed. -/
def sampleRelay (options : ServerOptions) (events : List (Str × Event))
    (messages : List Structured) : Relay :=
  plainRelay (tabled (events.map (fun e => (e.1, e.2.id)))
    (events.map (fun e => (e.2.id, e.2.author, e.2.sig)))
    messages) options

theorem Carries.listed {options : ServerOptions} {digests : List (Str × Binary 32)}
    {signatures : List (Binary 32 × Binary 32 × Binary 64)} {messages : List Structured}
    {t cmd : Str} {m : Structured}
    (h : Carries (plainRelay (tabled digests signatures messages) options) (.text t) cmd m) :
    ∃ msg ∈ messages, jsonText msg = t ∧ m = msg.item 1 := by
  obtain ⟨payload, msg, hf, hj, -, hm⟩ := h
  cases hf
  exact ⟨msg, (fromJson_mem hj).1, (fromJson_mem hj).2, hm⟩

/-- And the message listed is carried. -/
theorem carries_command {options : ServerOptions} {digests : List (Str × Binary 32)}
    {signatures : List (Binary 32 × Binary 32 × Binary 64)} (ev : Event) (cmd : String) (id : Str) :
    Carries (plainRelay (tabled digests signatures [ev.command cmd id]) options)
      (.text (jsonText (ev.command cmd id))) (str cmd) (ev.message id) :=
  ⟨_, ev.command cmd id, rfl, by simp [plainRelay, plainEngine, tabled, Relay.ext], rfl, rfl⟩

theorem ok_of_toOption {e : Except ε α} (h : e.toOption = some a) : e = .ok a := by
  cases e with
  | error => cases h
  | ok b =>
    cases h
    rfl

def holdingTwo (e e' : Event) : Table EventOrAttachment where
  records := [(1, .event e), (2, .event e')]
  rev := 2
  nodup := by simp
  bound := by simp

/-- The libraries when nothing is to be hashed, verified or parsed. -/
def silentRelay : Relay := plainRelay (tabled [] [] []) {}

def appHolding (e e' : Event) : App silentRelay := { storage := holdingTwo e e' }

theorem appHolding_valid {e e' : Event} (hkeys : ∀ k ∈ uniqueKeys silentRelay.ext (.event e),
    k ∉ uniqueKeys silentRelay.ext (.event e')) (hi : e.Indexed fnv1a) (hi' : e'.Indexed fnv1a) :
    (appHolding e e').Valid := by
  have hrecords : (appHolding e e').records = [(1, .event e), (2, .event e')] := rfl
  refine ⟨?_, ?_⟩
  · rw [hrecords]
    intro r hr r' hr' k hk hk'
    rcases List.mem_pair.mp hr with rfl | rfl <;> rcases List.mem_pair.mp hr' with rfl | rfl
    · rfl
    · exact absurd hk' (hkeys k hk)
    · exact absurd hk (hkeys k hk')
    · rfl
  · rw [hrecords]
    intro r hr ev he
    rcases List.mem_pair.mp hr with rfl | rfl <;> cases he
    · exact hi
    · exact hi'

def newPeer : Peer := { authPubkey := .ofNat 0, authNonce := [] }

/-- A client connects. -/
def arrival : Input := .connect 0 (.ofNat 0) []

def Structured.sent (msg : Structured) (mem : Memory) : Input :=
  .frame 0 (.text (jsonText msg)) { mem, now := 0 }

end NostrServer
