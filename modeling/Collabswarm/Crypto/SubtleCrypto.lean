import Mathlib.Tactic
import Collabswarm.Keychain.Epoch

/-!
# Encryption under document keys

`SubtleCrypto` encrypts with AES-GCM, or with AES-CTR or AES-CBC and an HMAC tag
over the nonce followed by the ciphertext.  The keys of the tags are derived
from the document keys and cached in each instance.  The tag does not say where
the nonce ends; that a nonce has its length is checked after the tag.
-/

namespace Collabswarm.Crypto

open Epochs (AesAlgorithmName)

/-- The parameters of a cipher. -/
inductive AesParams where
  | gcm (iv : Bytes)
  | ctr (counter : Bytes) (length : ℕ)
  | cbc (iv : Bytes)
deriving DecidableEq

/-- What WebCrypto offers; a key is an object.  An error is its message. -/
structure WebCrypto (K : Type) where
  encrypt : AesParams → K → Bytes → Except JsString Bytes
  decrypt : AesParams → K → Bytes → Except JsString Bytes
  sign : K → Bytes → Bytes
  verify : (key : K) → (signature data : Bytes) → Bool
  extractable : K → Bool
  exportKey : K → Bytes
  deriveHmacKey : (ikm salt info : Bytes) → K
  decrypt_encrypt : ∀ {params key data ciphertext},
    encrypt params key data = .ok ciphertext →
      decrypt params key ciphertext = .ok data
  verify_iff : ∀ {key signature data},
    verify key signature data = true ↔ signature = sign key data
  length_sign : ∀ key data, (sign key data).length = 32

/-- `HMAC_TAG_LENGTH`. -/
def hmacTagLength : ℕ := 32

/-- `nonceBits`, which counts bytes. -/
def nonceBits : AesAlgorithmName → ℕ
  | .gcm => 12
  | .ctr => 16
  | .cbc => 16

/-- The lower case name of an algorithm. -/
def lowerCaseName : AesAlgorithmName → JsString
  | .gcm => JsString.ofString "aes-gcm"
  | .ctr => JsString.ofString "aes-ctr"
  | .cbc => JsString.ofString "aes-cbc"

/-- The message for a nonce of another length. -/
def nonceLengthError (name : AesAlgorithmName) (nonce : Bytes) : JsString :=
  (match name with
    | .gcm => JsString.ofString "AES-GCM nonce must be 12 bytes, got "
    | .ctr => JsString.ofString "AES-CTR counter must be 16 bytes, got "
    | .cbc => JsString.ofString "AES-CBC IV must be 16 bytes, got ") ++
    JsString.ofString (toString nonce.length)

/-- The parameters of the configured cipher for a nonce. -/
def algorithmParams (name : AesAlgorithmName) (nonce : Bytes) : AesParams :=
  match name with
  | .gcm => .gcm nonce
  | .ctr => .ctr nonce 32
  | .cbc => .cbc nonce

/-- `_encryptionAlgorithmParams` with a nonce. -/
def encryptionAlgorithmParams (name : AesAlgorithmName) (nonce : Bytes) :
    Except JsString AesParams :=
  if nonce.length ≠ nonceBits name then .error (nonceLengthError name nonce)
  else .ok (algorithmParams name nonce)

/-- The nonce that `_encryptionAlgorithmParams` draws without one.  A counter
block starts at zero in its lower 32 bits. -/
def drawNonce (name : AesAlgorithmName)
    (random : (n : ℕ) → List.Vector UInt8 n) : Bytes :=
  match name with
  | .gcm => (random 12).toList
  | .ctr => (random 12).toList ++ List.replicate 4 0
  | .cbc => (random 16).toList

/-- `_extractNonce`. -/
def extractNonce : AesParams → Bytes
  | .gcm iv => iv
  | .ctr counter _ => counter
  | .cbc iv => iv

@[simp] theorem extractNonce_algorithmParams (name : AesAlgorithmName)
    (nonce : Bytes) : extractNonce (algorithmParams name nonce) = nonce := by
  cases name <;> rfl

@[simp] theorem length_drawNonce (name : AesAlgorithmName)
    (random : (n : ℕ) → List.Vector UInt8 n) :
    (drawNonce name random).length = nonceBits name := by
  cases name with
  | gcm => exact (random 12).2
  | cbc => exact (random 16).2
  | ctr =>
      unfold drawNonce nonceBits
      rw [List.length_append, List.Vector.toList_length,
        List.length_replicate]

theorem encryptionAlgorithmParams_eq_ok_iff {name : AesAlgorithmName}
    {nonce : Bytes} {params : AesParams} :
    encryptionAlgorithmParams name nonce = .ok params ↔
      nonce.length = nonceBits name ∧ algorithmParams name nonce = params := by
  unfold encryptionAlgorithmParams
  by_cases h : nonce.length = nonceBits name
  · rw [if_neg (not_not.2 h)]
    simp [h]
  · rw [if_pos h]
    simp [h]

/-! ## The tag keys -/

/-- `_hmacKeyCache`. -/
abbrev HmacKeyCache (K : Type) : Type := K → Option K

variable {K : Type} [DecidableEq K] (crypto : WebCrypto K)
  (name : AesAlgorithmName)

/-- The message of a key that cannot be exported. -/
def notExtractable : JsString :=
  JsString.ofString
      "Cannot derive HMAC key: the document encryption key must be " ++
    JsString.ofString
      "extractable. Ensure the key was created with extractable: true."

omit [DecidableEq K] in
/-- The key that is derived from a document key. -/
def hmacKey (documentKey : K) : K :=
  crypto.deriveHmacKey (crypto.exportKey documentKey) []
    (JsString.textEncode
      (JsString.ofString "hmac-auth-" ++ lowerCaseName name))

/-- `_deriveHmacKey`, with the cache that it leaves. -/
def deriveHmacKey (cache : HmacKeyCache K) (documentKey : K) :
    Except JsString K × HmacKeyCache K :=
  match cache documentKey with
  | some cached => (.ok cached, cache)
  | none =>
      if crypto.extractable documentKey then
        (.ok (hmacKey crypto name documentKey),
          Function.update cache documentKey
            (some (hmacKey crypto name documentKey)))
      else (.error notExtractable, cache)

/-- `decrypt`, with the cache that it leaves. -/
def decrypt (cache : HmacKeyCache K) (data : Bytes) (documentKey : K)
    (nonce : Option Bytes) : Except JsString Bytes × HmacKeyCache K :=
  match nonce with
  | none =>
      (.error (JsString.ofString "Nonce is required for decryption"), cache)
  | some nonce =>
      let decryptAes (ciphertext : Bytes) : Except JsString Bytes := do
        let params ← encryptionAlgorithmParams name nonce
        crypto.decrypt params documentKey ciphertext
      if name = .gcm then (decryptAes data, cache)
      else if data.length < hmacTagLength then
        (.error
          (JsString.ofString "Ciphertext too short to contain HMAC tag"),
          cache)
      else
        let ciphertext := data.take (data.length - hmacTagLength)
        let receivedTag := data.drop (data.length - hmacTagLength)
        match deriveHmacKey crypto name cache documentKey with
        | (.error e, cache) => (.error e, cache)
        | (.ok hmacKey, cache) =>
            if crypto.verify hmacKey receivedTag (nonce ++ ciphertext) then
              (decryptAes ciphertext, cache)
            else
              (.error (JsString.ofString
                "HMAC verification failed — ciphertext may be tampered"),
                cache)

/-- What `encrypt` returns. -/
structure EncryptionResult where
  data : Bytes
  nonce : Bytes
deriving DecidableEq

/-- `encrypt`, with the cache that it leaves. -/
def encrypt (cache : HmacKeyCache K)
    (random : (n : ℕ) → List.Vector UInt8 n) (data : Bytes)
    (documentKey : K) :
    Except JsString EncryptionResult × HmacKeyCache K :=
  let params := algorithmParams name (drawNonce name random)
  match crypto.encrypt params documentKey data with
  | .error e => (.error e, cache)
  | .ok ciphertext =>
      if name = .gcm then (.ok ⟨ciphertext, extractNonce params⟩, cache)
      else
        match deriveHmacKey crypto name cache documentKey with
        | (.error e, cache) => (.error e, cache)
        | (.ok hmacKey, cache) =>
            let nonce := extractNonce params
            let tag := crypto.sign hmacKey (nonce ++ ciphertext)
            (.ok ⟨ciphertext ++ tag, nonce⟩, cache)

/-! ## The cache makes no difference -/

/-- Every cached key is the derived one, of a key that can be exported. -/
def SoundCache (cache : HmacKeyCache K) : Prop :=
  ∀ documentKey cached, cache documentKey = some cached →
    crypto.extractable documentKey = true ∧
      cached = hmacKey crypto name documentKey

omit [DecidableEq K] in
theorem soundCache_empty : SoundCache crypto name fun _ => none := by
  intro documentKey cached h
  cases h

variable {crypto name} {cache : HmacKeyCache K}

theorem SoundCache.fst_deriveHmacKey (h : SoundCache crypto name cache)
    (documentKey : K) :
    (deriveHmacKey crypto name cache documentKey).1 =
      if crypto.extractable documentKey then
        .ok (hmacKey crypto name documentKey)
      else .error notExtractable := by
  unfold deriveHmacKey
  cases hcached : cache documentKey with
  | none => by_cases hkey : crypto.extractable documentKey <;> simp [hkey]
  | some cached =>
      obtain ⟨hkey, rfl⟩ := h documentKey cached hcached
      exact (if_pos hkey).symm

theorem SoundCache.snd_deriveHmacKey (h : SoundCache crypto name cache)
    (documentKey : K) :
    SoundCache crypto name
      (deriveHmacKey crypto name cache documentKey).2 := by
  unfold deriveHmacKey
  cases hcached : cache documentKey with
  | some cached => exact h
  | none =>
      by_cases hkey : crypto.extractable documentKey = true
      · simp only [hkey, if_true]
        intro documentKey' cached' hcached'
        by_cases heq : documentKey' = documentKey
        · subst heq
          rw [Function.update_self, Option.some.injEq] at hcached'
          exact ⟨hkey, hcached'.symm⟩
        · rw [Function.update_of_ne heq] at hcached'
          exact h documentKey' cached' hcached'
      · simp only [hkey]
        exact h

theorem SoundCache.snd_decrypt (h : SoundCache crypto name cache)
    (data : Bytes) (documentKey : K) (nonce : Option Bytes) :
    SoundCache crypto name
      (decrypt crypto name cache data documentKey nonce).2 := by
  have hderive := h.snd_deriveHmacKey documentKey
  unfold decrypt
  cases nonce with
  | none => exact h
  | some nonce =>
      dsimp only
      split_ifs with hgcm hshort
      · exact h
      · exact h
      · rcases hresult : deriveHmacKey crypto name cache documentKey with
          ⟨_ | derived, cache'⟩
        · rw [hresult] at hderive
          exact hderive
        · rw [hresult] at hderive
          dsimp only
          split_ifs <;> exact hderive

theorem SoundCache.snd_encrypt (h : SoundCache crypto name cache)
    (random : (n : ℕ) → List.Vector UInt8 n) (data : Bytes)
    (documentKey : K) :
    SoundCache crypto name
      (encrypt crypto name cache random data documentKey).2 := by
  have hderive := h.snd_deriveHmacKey documentKey
  unfold encrypt
  dsimp only
  cases crypto.encrypt (algorithmParams name (drawNonce name random))
      documentKey data with
  | error e => exact h
  | ok ciphertext =>
      dsimp only
      split_ifs
      · exact h
      · rcases hresult : deriveHmacKey crypto name cache documentKey with
          ⟨_ | derived, cache'⟩ <;> rw [hresult] at hderive <;>
          exact hderive

/-! ## What is authenticated -/

/-- What the configured construction lets through under a key: WebCrypto
decrypts a GCM text, or the tag of a CTR or CBC text verifies. -/
def Authenticates (crypto : WebCrypto K) (name : AesAlgorithmName)
    (documentKey : K) (nonce data : Bytes) : Prop :=
  if name = .gcm then
    ∃ content, crypto.decrypt (algorithmParams name nonce) documentKey data =
      .ok content
  else
    ∃ ciphertext, data = ciphertext ++
      crypto.sign (hmacKey crypto name documentKey) (nonce ++ ciphertext)

/-- The text without its tag. -/
def ciphertextOf (name : AesAlgorithmName) (data : Bytes) : Bytes :=
  if name = .gcm then data else data.take (data.length - hmacTagLength)

omit [DecidableEq K] in
theorem ciphertextOf_append_sign (hname : name ≠ .gcm) (ciphertext : Bytes)
    (key : K) (signed : Bytes) :
    ciphertextOf name (ciphertext ++ crypto.sign key signed) =
      ciphertext := by
  unfold ciphertextOf
  rw [if_neg hname, List.length_append, crypto.length_sign, hmacTagLength,
    Nat.add_sub_cancel, List.take_left]

omit [DecidableEq K] in
/-- A tag verifies exactly for the text that was signed, followed by the
tag. -/
theorem verify_drop_iff (crypto : WebCrypto K) (key : K) (nonce data : Bytes)
    (hlength : hmacTagLength ≤ data.length) :
    crypto.verify key (data.drop (data.length - hmacTagLength))
        (nonce ++ data.take (data.length - hmacTagLength)) = true ↔
      ∃ ciphertext, data =
        ciphertext ++ crypto.sign key (nonce ++ ciphertext) := by
  rw [crypto.verify_iff]
  constructor
  · intro htag
    refine ⟨data.take (data.length - hmacTagLength), ?_⟩
    rw [← htag, List.take_append_drop]
  · rintro ⟨ciphertext, rfl⟩
    have htake : ciphertext.length + 32 - hmacTagLength =
        ciphertext.length := Nat.add_sub_cancel _ _
    rw [List.length_append, crypto.length_sign, htake, List.take_left,
      List.drop_left]

/-- With a sound cache a text decrypts exactly if it is authenticated, the
nonce has its length, and the cipher accepts what is left without the tag. -/
theorem SoundCache.decrypt_eq_ok_iff (h : SoundCache crypto name cache)
    {data : Bytes} {documentKey : K} {nonce content : Bytes} :
    (decrypt crypto name cache data documentKey (some nonce)).1 =
        .ok content ↔
      Authenticates crypto name documentKey nonce data ∧
        (name ≠ .gcm → crypto.extractable documentKey = true) ∧
        nonce.length = nonceBits name ∧
        crypto.decrypt (algorithmParams name nonce) documentKey
          (ciphertextOf name data) = .ok content := by
  have haes : ∀ ciphertext : Bytes,
      (do
        let params ← encryptionAlgorithmParams name nonce
        crypto.decrypt params documentKey ciphertext) = .ok content ↔
      nonce.length = nonceBits name ∧
        crypto.decrypt (algorithmParams name nonce) documentKey ciphertext =
          .ok content := by
    intro ciphertext
    unfold encryptionAlgorithmParams
    by_cases hlength : nonce.length = nonceBits name
    · rw [if_neg (not_not.2 hlength)]
      exact (and_iff_right hlength).symm
    · rw [if_pos hlength]
      refine iff_of_false ?_ fun hboth => hlength hboth.1
      intro herror
      cases herror
  have hderive := h.fst_deriveHmacKey documentKey
  unfold decrypt Authenticates ciphertextOf
  dsimp only
  by_cases hgcm : name = .gcm
  · rw [if_pos hgcm, if_pos hgcm, if_pos hgcm, haes]
    constructor
    · rintro ⟨hlength, haccept⟩
      exact ⟨⟨content, haccept⟩, fun hname => absurd hgcm hname, hlength,
        haccept⟩
    · rintro ⟨-, -, hlength, haccept⟩
      exact ⟨hlength, haccept⟩
  · rw [if_neg hgcm, if_neg hgcm, if_neg hgcm]
    by_cases hshort : data.length < hmacTagLength
    · rw [if_pos hshort]
      refine iff_of_false (by simp) ?_
      rintro ⟨⟨ciphertext, hdata⟩, -⟩
      rw [hdata, List.length_append, crypto.length_sign, hmacTagLength]
        at hshort
      omega
    · rw [if_neg hshort]
      have hverify := verify_drop_iff crypto
        (hmacKey crypto name documentKey) nonce data (not_lt.1 hshort)
      rcases hresult : deriveHmacKey crypto name cache documentKey with
        ⟨_ | derived, cache'⟩
      · rw [hresult] at hderive
        refine iff_of_false (by simp) ?_
        rintro ⟨-, hextractable, -⟩
        rw [if_pos (hextractable hgcm)] at hderive
        cases hderive
      · rw [hresult] at hderive
        by_cases hextractable : crypto.extractable documentKey = true
        · rw [if_pos hextractable, Except.ok.injEq] at hderive
          rw [← hderive] at hverify ⊢
          rw [← hverify]
          dsimp only
          split_ifs with hvalid
          · rw [haes]
            exact ⟨fun hboth => ⟨hvalid, fun _ => hextractable, hboth⟩,
              fun hall => hall.2.2⟩
          · refine iff_of_false (by simp) fun hall => hvalid hall.1
        · rw [if_neg hextractable] at hderive
          cases hderive

/-- What `encrypt` returns is drawn, encrypted and, outside GCM, signed. -/
theorem SoundCache.encrypt_eq_ok_iff (h : SoundCache crypto name cache)
    {random : (n : ℕ) → List.Vector UInt8 n} {content : Bytes}
    {documentKey : K} {result : EncryptionResult} :
    (encrypt crypto name cache random content documentKey).1 = .ok result ↔
      ∃ ciphertext,
        crypto.encrypt (algorithmParams name (drawNonce name random))
          documentKey content = .ok ciphertext ∧
        (name ≠ .gcm → crypto.extractable documentKey = true) ∧
        result.nonce = drawNonce name random ∧
        result.data = if name = .gcm then ciphertext else
          ciphertext ++ crypto.sign (hmacKey crypto name documentKey)
            (drawNonce name random ++ ciphertext) := by
  have hderive := h.fst_deriveHmacKey documentKey
  unfold encrypt
  dsimp only
  cases hciphertext : crypto.encrypt
      (algorithmParams name (drawNonce name random)) documentKey content with
  | error e => simp
  | ok ciphertext =>
      simp only [Except.ok.injEq, exists_eq_left',
        extractNonce_algorithmParams]
      by_cases hgcm : name = .gcm
      · rw [if_pos hgcm, if_pos hgcm]
        obtain ⟨data, nonce⟩ := result
        simp only [Except.ok.injEq, EncryptionResult.mk.injEq]
        constructor
        · rintro ⟨hdata, hnonce⟩
          exact ⟨fun hname => absurd hgcm hname, hnonce.symm, hdata.symm⟩
        · rintro ⟨-, hnonce, hdata⟩
          exact ⟨hdata.symm, hnonce.symm⟩
      · rw [if_neg hgcm, if_neg hgcm]
        rcases hresult : deriveHmacKey crypto name cache documentKey with
          ⟨_ | derived, cache'⟩
        · rw [hresult] at hderive
          refine iff_of_false (by simp) ?_
          rintro ⟨hextractable, -⟩
          rw [if_pos (hextractable hgcm)] at hderive
          cases hderive
        · rw [hresult] at hderive
          by_cases hextractable : crypto.extractable documentKey = true
          · rw [if_pos hextractable, Except.ok.injEq] at hderive
            obtain ⟨data, nonce⟩ := result
            simp only [Except.ok.injEq, EncryptionResult.mk.injEq, ← hderive]
            constructor
            · rintro ⟨hdata, hnonce⟩
              exact ⟨fun _ => hextractable, hnonce.symm, hdata.symm⟩
            · rintro ⟨-, hnonce, hdata⟩
              exact ⟨hdata.symm, hnonce.symm⟩
          · rw [if_neg hextractable] at hderive
            cases hderive

end Collabswarm.Crypto
