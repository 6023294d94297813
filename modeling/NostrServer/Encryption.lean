import NostrServer.Keys
import NostrServer.Reference

namespace NostrServer.SignatureTools

abbrev SharedSecret := Binary 32

/-- What private messages use of the libraries: secp256k1's keys and products, OpenSSL's
AES-256-CBC with padding, and the base64 of coroserver. What fails has no value. -/
structure Crypto where
  Point : Type
  ecPubkeyParse : Str → Option Point
  /-- The two coordinates that the product is handed over with. -/
  ecdh : Point → PrivateKey → Option (Binary 32 × Binary 32)
  Ctx : Type
  encryptInit : SharedSecret → Binary 16 → Option Ctx
  encryptUpdate : Ctx → Str → Option (Str × Ctx)
  encryptFinal : Ctx → Option Str
  decryptInit : SharedSecret → Binary 16 → Option Ctx
  decryptUpdate : Ctx → Str → Option (Str × Ctx)
  decryptFinal : Ctx → Option Str
  base64Encode : Str → Str
  base64Decode : Str → Str

def find (text : Str) : Str → Option Nat
  | [] => if text = [] then some 0 else none
  | c :: rest => if text.isPrefixOf (c :: rest) then some 0 else (find text rest).map (· + 1)

inductive OutOfRange where
  | outOfRange
deriving DecidableEq

def substr (s : Str) (pos : Nat) : Except OutOfRange Str :=
  if pos > s.length then .error .outOfRange else .ok (s.drop pos)

def copySharedPtX (x32 _y32 : Binary 32) : SharedSecret := x32

namespace Crypto
variable (cr : Crypto)

/-- `SignatureTools::shared_secret`: the key is the point with that x and an even y. -/
def sharedSecret (pk : PrivateKey) (pub : PublicKey) : Option SharedSecret := do
  let pubk ← cr.ecPubkeyParse (2 :: pub.bytes)
  let (x32, y32) ← cr.ecdh pubk pk
  return copySharedPtX x32 y32

/-- The ciphertext as `encrypt` collects it: what the update gives, and the last block. -/
def encryptCbc (secret : SharedSecret) (iv : Binary 16) (message : Str) : Option Str := do
  let ctx ← cr.encryptInit secret iv
  let (ciphertext, ctx) ← cr.encryptUpdate ctx message
  let last ← cr.encryptFinal ctx
  return ciphertext ++ last

/-- And the plaintext as `decrypt` does. -/
def decryptCbc (secret : SharedSecret) (iv : Binary 16) (message : Str) : Option Str := do
  let ctx ← cr.decryptInit secret iv
  let (plaintext, ctx) ← cr.decryptUpdate ctx message
  let last ← cr.decryptFinal ctx
  return plaintext ++ last

/-- `SignatureTools::encrypt`: whether it succeeds, and the text with the envelope after
it. `random` is what `RAND_bytes` gives, `context` whether a cipher context is had. -/
def encrypt (sender : PrivateKey) (receiver : PublicKey) (message : Str)
    (random : Option (Binary 16)) (context : Bool) (encryptedMessage : Str) : Bool × Str :=
  match cr.sharedSecret sender receiver, random, context with
  | some secret, some iv, true =>
    match cr.encryptCbc secret iv message with
    | some ciphertext =>
      (true, encryptedMessage ++ cr.base64Encode ciphertext ++ str "?iv=" ++
        cr.base64Encode iv.bytes)
    | none => (false, encryptedMessage)
  | _, _, _ => (false, encryptedMessage)

/-- `SignatureTools::decrypt`. The separator is looked for in the encrypted message; what
is cut at its place is the text that the result goes to. -/
def decrypt (receiver : PrivateKey) (sender : PublicKey) (encryptedMessage : Str)
    (unwritten : Binary 16) (message : Str) : Except OutOfRange (Bool × Str) :=
  match find (str "?iv=") encryptedMessage with
  | none => .ok (false, message)
  | some pos =>
    match substr message (pos + 4) with
    | .error e => .error e
    | .ok ivText =>
      let cipherText := message.take pos
      let iv := fill unwritten (cr.base64Decode ivText)
      let binMessage := cr.base64Decode cipherText
      match (cr.sharedSecret receiver sender).bind
        (fun secret => cr.decryptCbc secret iv binMessage) with
      | some plaintext => .ok (true, message ++ plaintext)
      | none => .ok (false, message)

/-- What is relied on: products of two keys' secrets are the same from both sides, the
decryption inverts the encryption, and base64 is read back and has no question mark. -/
structure Sound (pairs : PrivateKey → PublicKey → Prop) : Prop where
  ecdh : ∀ a b A B, pairs a A → pairs b B → cr.sharedSecret a B = cr.sharedSecret b A
  cbc : ∀ secret iv m c, cr.encryptCbc secret iv m = some c → cr.decryptCbc secret iv c = some m
  base64 : ∀ s, cr.base64Decode (cr.base64Encode s) = s
  alphabet : ∀ s, 63 ∉ cr.base64Encode s

end Crypto

theorem find_cons (text : Str) (c : UInt8) (rest : Str) :
    find text (c :: rest) = if text.isPrefixOf (c :: rest) then some 0
      else (find text rest).map (· + 1) := rfl

/-- A text that is there is found. -/
theorem find_some (text before after : Str) :
    ∃ pos, find text (before ++ text ++ after) = some pos := by
  induction before with
  | nil =>
    rw [List.nil_append]
    cases hcat : text ++ after with
    | nil => exact ⟨0, by simp [find, (List.append_eq_nil_iff.mp hcat).1]⟩
    | cons c rest =>
      have hprefix : text.isPrefixOf (c :: rest) = true := by
        rw [List.isPrefixOf_iff_prefix, ← hcat]
        exact List.prefix_append _ _
      exact ⟨0, by rw [find_cons, if_pos hprefix]⟩
  | cons c before ih =>
    obtain ⟨pos, hpos⟩ := ih
    simp only [List.cons_append, find_cons, hpos, Option.map_some]
    split
    · exact ⟨_, rfl⟩
    · exact ⟨_, rfl⟩

/-- A separator is found at its place after a text without its first character: `decrypt` finds
the one that `encrypt` wrote. -/
theorem find_separator (hbefore : 63 ∉ before) (after : Str) :
    find (str "?iv=") (before ++ str "?iv=" ++ after) = some before.length := by
  have hseparator : str "?iv=" = [63, 105, 118, 61] := by decide +kernel
  rw [hseparator]
  induction before with
  | nil => simp [find_cons]
  | cons c before ih =>
    simp only [List.mem_cons, not_or] at hbefore
    have hno : ([63, 105, 118, 61] : Str).isPrefixOf (c ::
        (before ++ [63, 105, 118, 61] ++ after)) = false := by
      rw [List.isPrefixOf, beq_eq_false_iff_ne.mpr hbefore.1, Bool.false_and]
    rw [List.cons_append, List.cons_append, find_cons, hno, ih hbefore.2]
    rfl

namespace Crypto
variable {cr : Crypto}

/-- What a successful encryption has put together. -/
theorem encrypt_eq_true (h : cr.encrypt a B m random context out = (true, out')) :
    ∃ secret iv c, cr.sharedSecret a B = some secret ∧ cr.encryptCbc secret iv m = some c ∧
      out' = out ++ cr.base64Encode c ++ str "?iv=" ++ cr.base64Encode iv.bytes := by
  unfold encrypt at h
  split at h
  · rename_i secret iv hsecret
    split at h
    · rename_i c hc
      cases h
      exact ⟨secret, iv, c, hsecret, hc, rfl⟩
    · cases h
  · cases h

/-- The two formats agree, and what goes wrong is only which text `decrypt` cuts the parts out
of: where the result goes to a text that is the envelope itself, the message comes after it. -/
theorem decrypt_in_place {pairs : PrivateKey → PublicKey → Prop} (hs : cr.Sound pairs)
    (ha : pairs a A) (hb : pairs b B) (h : cr.encrypt a B m random context [] = (true, out))
    (unwritten : Binary 16) :
    cr.decrypt b A out unwritten out = .ok (true, out ++ m) := by
  obtain ⟨secret, iv, c, hsecret, hc, rfl⟩ := encrypt_eq_true h
  have hlength : (str "?iv=").length = 4 := by decide +kernel
  have hsubstr : substr (cr.base64Encode c ++ str "?iv=" ++ cr.base64Encode iv.bytes)
      ((cr.base64Encode c).length + 4) = .ok (cr.base64Encode iv.bytes) := by
    simp [substr, hlength, List.drop_append]
  have htake : (cr.base64Encode c ++ str "?iv=" ++
      cr.base64Encode iv.bytes).take (cr.base64Encode c).length =
      cr.base64Encode c := by
    rw [List.append_assoc, List.take_left]
  unfold decrypt
  rw [List.nil_append, find_separator (hs.alphabet c)]
  simp only [hsubstr, htake, hs.base64, fill_bytes, ← hs.ecdh a b A B ha hb, hsecret,
    Option.bind_some, hs.cbc _ _ _ _ hc]

/-- An envelope's parts are cut out of the empty text. -/
theorem decrypt_cut (b : PrivateKey) (A : PublicKey) (before after : Str) (unwritten : Binary 16) :
    cr.decrypt b A (before ++ str "?iv=" ++ after) unwritten [] = .error .outOfRange := by
  obtain ⟨pos, hpos⟩ := find_some (str "?iv=") before after
  have hempty : substr [] (pos + 4) = .error .outOfRange := if_pos (Nat.zero_lt_succ _)
  unfold decrypt
  rw [hpos]
  simp only [hempty]

/-- Into an empty text nothing that was encrypted is ever decrypted. -/
theorem decrypt_throws (h : cr.encrypt a B m random context [] = (true, out)) (b : PrivateKey)
    (A : PublicKey) (unwritten : Binary 16) :
    cr.decrypt b A out unwritten [] = .error .outOfRange := by
  obtain ⟨secret, iv, c, -, -, rfl⟩ := encrypt_eq_true h
  exact decrypt_cut b A _ _ unwritten

end Crypto

def base64Letters : Str := str "ABCDEFGHIJKLMNOPQRSTUVWXYZabcdefghijklmnopqrstuvwxyz0123456789+/"

def plainBase64 (s : Str) : Str :=
  (asChars (convertBits 8 6 s)).map (fun v => base64Letters.getD v.toNat 0) ++
    List.replicate ((3 - s.length % 3) % 3) 61

def plainBase64Back (s : Str) : Str :=
  asChars (convertBits 6 8
    ((s.takeWhile (· ≠ 61)).map (fun c => UInt8.ofNat (base64Letters.idxOf c))))

theorem base64_letter (v : UInt8) (hv : v < 64) :
    base64Letters.getD v.toNat 0 ≠ 61 ∧ base64Letters.getD v.toNat 0 ≠ 63 ∧
    UInt8.ofNat (base64Letters.idxOf (base64Letters.getD v.toNat 0)) = v := by
  have hall : ∀ i : Fin 64, base64Letters.getD i.val 0 ≠ 61 ∧ base64Letters.getD i.val 0 ≠ 63 ∧
      base64Letters.idxOf (base64Letters.getD i.val 0) = i.val := by decide +kernel
  obtain ⟨hpad, hquestion, hback⟩ := hall ⟨v.toNat, UInt8.lt_iff_toNat_lt.mp hv⟩
  exact ⟨hpad, hquestion, by rw [hback, UInt8.ofNat_toNat]⟩

theorem sixBits (s : Str) : ∀ v ∈ asChars (convertBits 8 6 s), v < 64 := by
  intro v hv
  obtain ⟨w, hw, rfl⟩ := List.mem_map.mp hv
  have hlt : w.toNat < 2 ^ 6 :=
    convertBits_fits (by decide) (by decide) s _ (List.mem_map.mpr ⟨w, hw, rfl⟩)
  have h64 : (64 : UInt8).toNat = 64 := rfl
  rw [UInt8.lt_iff_toNat_lt, UInt32.toNat_toUInt8, h64]
  omega

theorem plainBase64_back (s : Str) : plainBase64Back (plainBase64 s) = s := by
  have hletters : (plainBase64 s).takeWhile (· ≠ 61) =
      (asChars (convertBits 8 6 s)).map (fun v => base64Letters.getD v.toNat 0) := by
    rw [plainBase64, List.takeWhile_append_of_pos]
    · simp
    · intro c hc
      obtain ⟨v, hv, rfl⟩ := List.mem_map.mp hc
      exact decide_eq_true (base64_letter v (sixBits s v hv)).1
  have hvalues : ((asChars (convertBits 8 6 s)).map (fun v => base64Letters.getD v.toNat 0)).map
      (fun c => UInt8.ofNat (base64Letters.idxOf c)) = asChars (convertBits 8 6 s) := by
    rw [List.map_map]
    exact (List.map_congr_left (fun v hv => (base64_letter v (sixBits s v hv)).2.2)).trans
      (List.map_id _)
  rw [plainBase64Back, hletters, hvalues, convertBits_back (by decide) (by decide), asChars_bytes]

theorem plainBase64_question (s : Str) : 63 ∉ plainBase64 s := by
  intro hin
  rcases List.mem_append.mp hin with hin | hin
  · obtain ⟨v, hv, he⟩ := List.mem_map.mp hin
    exact (base64_letter v (sixBits s v hv)).2.1 he
  · exact absurd (List.eq_of_mem_replicate hin) (by decide)

/-- The private keys 3 and 5, their public keys, and what they share. -/
def aliceKey : PrivateKey := .ofNat 3

def alicePub : PublicKey :=
  .ofNat 0xf9308a019258c31049344f85f89d5229b531c845836f99b08601f113bce036f9

def bobKey : PrivateKey := .ofNat 5

def bobPub : PublicKey := .ofNat 0x2f8bde4d1a07209355b4a7250a5c5128e88b84bddc619ab7cba8d569b240efe4

def sharedX : Binary 32 := .ofNat 0xd7924d4f7d43ea965a465ae3095ff41131e5946f3c85f79e44adbcf8e27e080e

def sharedY : Binary 32 := .ofNat 0x581e2872a86c72a683842ec228cc6defea40af2bd896d3a5c504dc9ff6a26b58

def sampleIv : Binary 16 := .ofNat 0x000102030405060708090a0b0c0d0e0f

def helloBlock : Str := (Binary.ofNat 0xdb4087e826c903646457c8ded0882f69 : Binary 16).bytes

/-- The libraries on these keys and the text "hello": a block that may be the last one is
held back until the end. -/
def sampleCrypto : Crypto where
  Point := Binary 32
  ecPubkeyParse s :=
    if s = 2 :: alicePub.bytes then some alicePub
    else if s = 2 :: bobPub.bytes then some bobPub else none
  ecdh p k :=
    if (p = bobPub ∧ k = aliceKey) ∨ (p = alicePub ∧ k = bobKey) then some (sharedX, sharedY)
    else none
  Ctx := Str
  encryptInit secret iv := if secret = sharedX ∧ iv = sampleIv then some [] else none
  encryptUpdate held s := some ([], held ++ s)
  encryptFinal held := if held = str "hello" then some helloBlock else none
  decryptInit secret iv := if secret = sharedX ∧ iv = sampleIv then some [] else none
  decryptUpdate held s := some ([], held ++ s)
  decryptFinal held := if held = helloBlock then some (str "hello") else none
  base64Encode := plainBase64
  base64Decode := plainBase64Back

def samplePairs (k : PrivateKey) (p : PublicKey) : Prop :=
  (k = aliceKey ∧ p = alicePub) ∨ (k = bobKey ∧ p = bobPub)

theorem sampleCrypto_encryptCbc (h : sampleCrypto.encryptCbc secret iv m = some c) :
    secret = sharedX ∧ iv = sampleIv ∧ m = str "hello" ∧ c = helloBlock := by
  unfold Crypto.encryptCbc at h
  by_cases hkey : secret = sharedX ∧ iv = sampleIv
  · by_cases hm : m = str "hello"
    · simp [sampleCrypto, hkey, hm] at h
      exact ⟨hkey.1, hkey.2, hm, h.symm⟩
    · simp [sampleCrypto, hkey, hm] at h
  · simp [sampleCrypto, hkey] at h

theorem sampleCrypto_sound : sampleCrypto.Sound samplePairs where
  ecdh a b A B ha hb := by
    rcases ha with ⟨rfl, rfl⟩ | ⟨rfl, rfl⟩ <;> rcases hb with ⟨rfl, rfl⟩ | ⟨rfl, rfl⟩
    · rfl
    · decide +kernel
    · decide +kernel
    · rfl
  cbc secret iv m c h := by
    obtain ⟨rfl, rfl, rfl, rfl⟩ := sampleCrypto_encryptCbc h
    decide +kernel
  base64 := plainBase64_back
  alphabet := plainBase64_question

def sampleEnvelope : Str := plainBase64 helloBlock ++ str "?iv=" ++ plainBase64 sampleIv.bytes

theorem sample_encrypted :
    sampleCrypto.encrypt aliceKey bobPub (str "hello") (some sampleIv) true [] =
    (true, sampleEnvelope) := by
  have hsecret : sampleCrypto.sharedSecret aliceKey bobPub = some sharedX := by decide +kernel
  have hblock : sampleCrypto.encryptCbc sharedX sampleIv (str "hello") = some helloBlock := by
    decide +kernel
  simp only [Crypto.encrypt, hsecret, hblock]
  rfl

/-- What was encrypted for a key is not decrypted with it. -/
theorem sample_not_decrypted : sampleCrypto.Sound samplePairs ∧
    ¬ ∀ a b A B m random context out unwritten, samplePairs a A → samplePairs b B →
      sampleCrypto.encrypt a B m random context [] = (true, out) →
      sampleCrypto.decrypt b A out unwritten [] = .ok (true, m) := by
  refine ⟨sampleCrypto_sound, fun h => ?_⟩
  have hdecrypted := h aliceKey bobKey alicePub bobPub (str "hello") (some sampleIv) true
    sampleEnvelope
    (Binary.replicate 16 0) (Or.inl ⟨rfl, rfl⟩) (Or.inr ⟨rfl, rfl⟩) sample_encrypted
  have hthrown : sampleCrypto.decrypt bobKey alicePub sampleEnvelope (Binary.replicate 16 0) [] =
      .error .outOfRange :=
    Crypto.decrypt_cut _ _ _ _ _
  cases hthrown.symm.trans hdecrypted

theorem sample_throws : sampleCrypto.decrypt bobKey alicePub sampleEnvelope (Binary.replicate 16 0)
    [] = .error .outOfRange :=
  Crypto.decrypt_throws sample_encrypted bobKey alicePub _

end NostrServer.SignatureTools
