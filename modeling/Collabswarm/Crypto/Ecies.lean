import Mathlib.Tactic
import Collabswarm.Document.CollabswarmDocument
import Collabswarm.Support.JsString

/-!
# Sealing to a public key

`eciesSeal` agrees on a key between a fresh key pair and the recipient's public
key, and puts the salt, the fresh public key and the nonce in front of the
ciphertext.  `eciesOpen` reads these parts at their lengths.  It returns a
plaintext for exactly the byte strings that sealing it to this recipient can
give.
-/

namespace Collabswarm.Crypto

open Document (eciesP256PublicKeyLength)

/-- `AES_NONCE_LENGTH`. -/
def aesNonceLength : ℕ := 12

/-- `HKDF_SALT_LENGTH`. -/
def hkdfSaltLength : ℕ := 32

/-- The length of an AES-GCM tag. -/
def gcmTagLength : ℕ := 16

/-- `hkdfInfo`. -/
def hkdfInfo : Bytes := JsString.textEncode (JsString.ofString "beekem-ecies")

/-- ECDH, HKDF and AES-GCM of WebCrypto.  An uncompressed public key of the
curve is the key of some private key, and the only encoding of itself. -/
structure Ecdh (S P A : Type) where
  publicKey : S → P
  deriveBits : (publicKey : P) → (privateKey : S) → Bytes
  deriveKey : (ikm salt info : Bytes) → A
  encrypt : (key : A) → (iv data : Bytes) → Bytes
  decrypt : (key : A) → (iv data : Bytes) → Option Bytes
  exportKey : P → Bytes
  importKey : Bytes → Option P
  deriveBits_comm : ∀ a b,
    deriveBits (publicKey a) b = deriveBits (publicKey b) a
  exists_privateKey : ∀ pk, ∃ sk, publicKey sk = pk
  length_exportKey : ∀ pk, (exportKey pk).length = eciesP256PublicKeyLength
  importKey_exportKey : ∀ pk, importKey (exportKey pk) = some pk
  exportKey_of_importKey : ∀ {raw pk}, raw.length = eciesP256PublicKeyLength →
    importKey raw = some pk → exportKey pk = raw
  length_encrypt : ∀ key iv data,
    (encrypt key iv data).length = data.length + gcmTagLength
  decrypt_eq_some_iff : ∀ {key iv data plaintext},
    decrypt key iv data = some plaintext ↔ data = encrypt key iv plaintext

/-- What a call of `eciesSeal` draws: a key pair, a salt and a nonce. -/
structure SealRandomness (S : Type) where
  ephemeral : S
  salt : Bytes
  nonce : Bytes
  length_salt : salt.length = hkdfSaltLength
  length_nonce : nonce.length = aesNonceLength

/-- Why `eciesOpen` throws. -/
inductive EciesError where
  -- "eciesOpen: sealed payload truncated (got … bytes, need at least …)"
  | truncated (byteLength minLength : ℕ)
  | importKey
  | decrypt
deriving DecidableEq, Repr

section Ecies

variable {S P A : Type} (c : Ecdh S P A)

/-- `eciesSeal`. -/
def eciesSeal (r : SealRandomness S) (plaintext : Bytes)
    (recipientPublicKey : P) : Bytes :=
  let sharedBits := c.deriveBits recipientPublicKey r.ephemeral
  let aesKey := c.deriveKey sharedBits r.salt hkdfInfo
  let ciphertext := c.encrypt aesKey r.nonce plaintext
  let ephemeralPub := c.exportKey (c.publicKey r.ephemeral)
  r.salt ++ (ephemeralPub ++ (r.nonce ++ ciphertext))

/-- `eciesOpen`. -/
def eciesOpen (payload : Bytes) (recipientPrivateKey : S) :
    Except EciesError Bytes :=
  let minLength :=
    hkdfSaltLength + eciesP256PublicKeyLength + aesNonceLength + gcmTagLength
  if payload.length < minLength then
    .error (.truncated payload.length minLength)
  else
    let salt := payload.take hkdfSaltLength
    let rest := payload.drop hkdfSaltLength
    let ephemeralPubBytes := rest.take eciesP256PublicKeyLength
    let rest := rest.drop eciesP256PublicKeyLength
    let nonce := rest.take aesNonceLength
    let ciphertext := rest.drop aesNonceLength
    match c.importKey ephemeralPubBytes with
    | none => .error .importKey
    | some ephemeralPublicKey =>
        let sharedBits := c.deriveBits ephemeralPublicKey recipientPrivateKey
        let aesKey := c.deriveKey sharedBits salt hkdfInfo
        match c.decrypt aesKey nonce ciphertext with
        | none => .error .decrypt
        | some plaintext => .ok plaintext

/-- `importEciesPublicKey`. -/
def importEciesPublicKey (raw : Bytes) : Option P :=
  if raw.length ≠ eciesP256PublicKeyLength then none else c.importKey raw

variable {c}

theorem importEciesPublicKey_eq_some_iff {raw : Bytes} {pk : P} :
    importEciesPublicKey c raw = some pk ↔ raw = c.exportKey pk := by
  rw [importEciesPublicKey]
  split
  · rename_i hlength
    refine iff_of_false (by simp) ?_
    rintro rfl
    exact hlength (c.length_exportKey pk)
  · rename_i hlength
    constructor
    · intro h
      exact (c.exportKey_of_importKey (not_not.1 hlength) h).symm
    · rintro rfl
      exact c.importKey_exportKey pk

variable (c) in
theorem length_eciesSeal (r : SealRandomness S) (plaintext : Bytes) (pk : P) :
    (eciesSeal c r plaintext pk).length =
      hkdfSaltLength + eciesP256PublicKeyLength + aesNonceLength +
        gcmTagLength + plaintext.length := by
  simp only [eciesSeal, List.length_append, r.length_salt, r.length_nonce,
    c.length_exportKey, c.length_encrypt]
  omega

/-- The recipient opens what was sealed to its key. -/
theorem eciesOpen_eciesSeal (r : SealRandomness S) (plaintext : Bytes)
    (sk : S) :
    eciesOpen c (eciesSeal c r plaintext (c.publicKey sk)) sk =
      .ok plaintext := by
  have hlength := length_eciesSeal c r plaintext (c.publicKey sk)
  have hkey : (c.exportKey (c.publicKey r.ephemeral)).length =
      eciesP256PublicKeyLength := c.length_exportKey _
  rw [eciesOpen, if_neg (by omega)]
  simp only [eciesSeal, List.take_left' r.length_salt,
    List.drop_left' r.length_salt, List.take_left' hkey,
    List.drop_left' hkey, List.take_left' r.length_nonce,
    List.drop_left' r.length_nonce, c.importKey_exportKey,
    c.deriveBits_comm r.ephemeral sk]
  rw [c.decrypt_eq_some_iff.2 rfl]

/-- What is opened was sealed to the recipient's key, and nothing else was. -/
theorem eciesOpen_eq_ok_iff {payload plaintext : Bytes} {sk : S} :
    eciesOpen c payload sk = .ok plaintext ↔
      ∃ r : SealRandomness S,
        payload = eciesSeal c r plaintext (c.publicKey sk) := by
  constructor
  · intro h
    rw [eciesOpen] at h
    split at h
    · cases h
    rename_i hlength
    dsimp only at h
    split at h
    · cases h
    rename_i ephemeralPublicKey himport
    split at h
    · cases h
    rename_i hdecrypt
    obtain rfl := Except.ok.inj h
    obtain ⟨ephemeral, rfl⟩ := c.exists_privateKey ephemeralPublicKey
    simp only [hkdfSaltLength, eciesP256PublicKeyLength, aesNonceLength,
      gcmTagLength] at hlength
    have hephemeral := c.exportKey_of_importKey (by
      simp only [List.length_take, List.length_drop, hkdfSaltLength,
        eciesP256PublicKeyLength]
      omega) himport
    refine ⟨⟨ephemeral, payload.take hkdfSaltLength,
      ((payload.drop hkdfSaltLength).drop eciesP256PublicKeyLength).take
        aesNonceLength, ?_, ?_⟩, ?_⟩
    · rw [List.length_take, hkdfSaltLength]
      omega
    · simp only [List.length_take, List.length_drop, hkdfSaltLength,
        eciesP256PublicKeyLength, aesNonceLength]
      omega
    · rw [eciesSeal, c.deriveBits_comm sk ephemeral]
      simp only [hephemeral, ← c.decrypt_eq_some_iff.1 hdecrypt,
        List.take_append_drop]
  · rintro ⟨r, rfl⟩
    exact eciesOpen_eciesSeal r plaintext sk

end Ecies

end Collabswarm.Crypto
