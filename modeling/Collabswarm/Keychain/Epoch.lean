import Mathlib.Data.List.Basic
import Mathlib.Logic.Basic
import Collabswarm.Support.JsString

/-!
# Epoch ids and secrets

An epoch id is the hash of the group secret and the id of the parent epoch, and
the epoch secret is derived from the group secret and the id.  Secrets and ids
are views of buffers.  Without a parent the whole buffer of the secret is
hashed, and the derivation takes whole buffers, so the results depend on more
than the bytes of the views.
-/

namespace Collabswarm.Epochs

/-- A view of a part of a buffer. -/
structure Uint8Array where
  buffer : Bytes
  byteOffset : ℕ
  byteLength : ℕ
  inside : byteOffset + byteLength ≤ buffer.length

namespace Uint8Array

/-- The contents of a view. -/
def bytes (view : Uint8Array) : Bytes :=
  (view.buffer.drop view.byteOffset).take view.byteLength

/-- A new array with a buffer of its own. -/
def ofBytes (bytes : Bytes) : Uint8Array := ⟨bytes, 0, bytes.length, by simp⟩

/-- The view shows its whole buffer. -/
def Spans (view : Uint8Array) : Prop := view.byteLength = view.buffer.length

@[simp] theorem buffer_ofBytes (bytes : Bytes) :
    (ofBytes bytes).buffer = bytes :=
  rfl

@[simp] theorem bytes_ofBytes (bytes : Bytes) :
    (ofBytes bytes).bytes = bytes := by
  simp [Uint8Array.bytes, ofBytes]

theorem spans_ofBytes (bytes : Bytes) : (ofBytes bytes).Spans := rfl

theorem Spans.buffer_eq {view : Uint8Array} (h : view.Spans) :
    view.buffer = view.bytes := by
  have hinside := view.inside
  rw [Spans] at h
  have hoffset : view.byteOffset = 0 := by omega
  rw [bytes, hoffset, h, List.drop_zero, List.take_length]

end Uint8Array

/-! ## The functions -/

/-- The primitives of WebCrypto that make bytes. -/
structure Crypto where
  sha256 : Bytes → Bytes
  hkdf : (ikm salt info : Bytes) → (bits : ℕ) → Bytes

/-- The algorithms a key can be made for. -/
inductive AesAlgorithmName where
  | gcm
  | ctr
  | cbc
  deriving DecidableEq

/-- `EPOCH_SECRET_INFO`. -/
def epochSecretInfo : JsString := JsString.ofString "swarmdb-epoch-v1"

/-- `ENCRYPTION_KEY_INFO`. -/
def encryptionKeyInfo : AesAlgorithmName → JsString
  | .gcm => JsString.ofString "aes-gcm-key"
  | .ctr => JsString.ofString "aes-ctr-key"
  | .cbc => JsString.ofString "aes-cbc-key"

/-- The bytes that `generateEpochId` hashes. -/
def digestInput (groupSecret : Uint8Array) (parentEpochId : Option Uint8Array) :
    Bytes :=
  let input := match parentEpochId with
    | some parent => Uint8Array.ofBytes (groupSecret.bytes ++ parent.bytes)
    | none => groupSecret
  input.buffer

/-- `generateEpochId`. -/
def generateEpochId (crypto : Crypto) (groupSecret : Uint8Array)
    (parentEpochId : Option Uint8Array) : Uint8Array :=
  Uint8Array.ofBytes (crypto.sha256 (digestInput groupSecret parentEpochId))

/-- `deriveEpochSecret`. -/
def deriveEpochSecret (crypto : Crypto)
    (groupKeyAgreementOutput epochId : Uint8Array) : Uint8Array :=
  Uint8Array.ofBytes (crypto.hkdf groupKeyAgreementOutput.buffer epochId.buffer
    (JsString.textEncode epochSecretInfo) 256)

section CreateEpoch

variable {Key : Type} (crypto : Crypto)
  (deriveKey : (ikm salt info : Bytes) → AesAlgorithmName →
    (extractable : Bool) → Key)

/-- `deriveEncryptionKey`. -/
def deriveEncryptionKey (epochSecret : Uint8Array)
    (algorithmName : AesAlgorithmName) : Key :=
  deriveKey epochSecret.buffer []
    (JsString.textEncode (encryptionKeyInfo algorithmName)) algorithmName
    (decide (algorithmName ≠ .gcm))

/-- An epoch. -/
structure Epoch (Key : Type) where
  id : Uint8Array
  encryptionKey : Key
  memberHashes : List JsString
  parentEpochId : Option Uint8Array
  createdAt : ℕ

/-- `createEpoch`, at a time. -/
def createEpoch (now : ℕ) (groupSecret : Uint8Array) (members : List JsString)
    (parentEpochId : Option Uint8Array) (algorithmName : AesAlgorithmName) :
    Epoch Key :=
  let epochId := generateEpochId crypto groupSecret parentEpochId
  let epochSecret := deriveEpochSecret crypto groupSecret epochId
  let encryptionKey := deriveEncryptionKey deriveKey epochSecret algorithmName
  { id := epochId
    encryptionKey := encryptionKey
    memberHashes := members
    parentEpochId := parentEpochId
    createdAt := now }

end CreateEpoch

/-! ## Two calls -/

section TwoCalls

/-- The views of two calls have the same contents. -/
structure SameBytes (s s' : Uint8Array) (p p' : Option Uint8Array)
    (e e' : Uint8Array) : Prop where
  secret : s.bytes = s'.bytes
  parent : p.map Uint8Array.bytes = p'.map Uint8Array.bytes
  epochId : e.bytes = e'.bytes

/-- The secrets and parents of two calls have 32 bytes and are not the same. -/
structure Distinct (s s' : Uint8Array) (p p' : Option Uint8Array) : Prop where
  secret : s.bytes.length = 32 ∧ s'.bytes.length = 32
  parent : (∀ v ∈ p, v.bytes.length = 32) ∧ ∀ v ∈ p', v.bytes.length = 32
  ne : ¬ (s.bytes = s'.bytes ∧ p.map Uint8Array.bytes = p'.map Uint8Array.bytes)

/-- The results depend on the bytes of the views: on nothing else, and on all
of them. -/
structure DependsOnBytes (s s' : Uint8Array) (p p' : Option Uint8Array)
    (e e' : Uint8Array) : Prop where
  same : SameBytes s s' p p' e e' → ∀ crypto : Crypto,
    (generateEpochId crypto s p).bytes = (generateEpochId crypto s' p').bytes ∧
      (deriveEpochSecret crypto s e).bytes =
        (deriveEpochSecret crypto s' e').bytes
  distinct : Distinct s s' p p' → digestInput s p ≠ digestInput s' p'

/-- The buffer behind a secret that is hashed without a parent, read as what is
hashed for another secret. -/
def Confused (s s' : Uint8Array) : Option Uint8Array → Option Uint8Array → Prop
  | none, none => s.buffer = s'.buffer
  | none, some parent => s.buffer = s'.bytes ++ parent.bytes
  | some parent, none => s.bytes ++ parent.bytes = s'.buffer
  | some _, some _ => False

/-- What the buffers behind the views have to be. -/
structure BuffersFit (s s' : Uint8Array) (p p' : Option Uint8Array)
    (e e' : Uint8Array) : Prop where
  same : SameBytes s s' p p' e e' → s.buffer = s'.buffer ∧ e.buffer = e'.buffer
  distinct : Distinct s s' p p' → ¬ Confused s s' p p'

variable {s s' : Uint8Array} {p p' : Option Uint8Array} {e e' : Uint8Array}

/-- With parents the bytes are hashed; without them, the buffers. -/
theorem digestInput_eq_of_same (h : SameBytes s s' p p' e e')
    (hbuffer : s.buffer = s'.buffer) : digestInput s p = digestInput s' p' := by
  have hparent := h.parent
  cases p with
  | none =>
      cases p' with
      | none => exact hbuffer
      | some parent' => cases hparent
  | some parent =>
      cases p' with
      | none => cases hparent
      | some parent' =>
          simp only [Option.map_some, Option.some.injEq] at hparent
          simp only [digestInput, Uint8Array.buffer_ofBytes, h.secret, hparent]

/-- Equal results under every hash and every derivation mean equal buffers. -/
theorem same_iff (h : SameBytes s s' p p' e e') :
    (∀ crypto : Crypto,
      (generateEpochId crypto s p).bytes = (generateEpochId crypto s' p').bytes ∧
        (deriveEpochSecret crypto s e).bytes =
          (deriveEpochSecret crypto s' e').bytes) ↔
    s.buffer = s'.buffer ∧ e.buffer = e'.buffer := by
  constructor
  · intro hall
    -- derivations that give the secret or the salt back
    have hikm := (hall ⟨id, fun ikm _ _ _ => ikm⟩).2
    have hsalt := (hall ⟨id, fun _ salt _ _ => salt⟩).2
    simp only [deriveEpochSecret, Uint8Array.bytes_ofBytes] at hikm hsalt
    exact ⟨hikm, hsalt⟩
  · rintro ⟨hsecret, hid⟩ crypto
    simp only [generateEpochId, deriveEpochSecret, hsecret, hid,
      digestInput_eq_of_same h hsecret, and_self]

/-- Distinct secrets and parents are hashed alike exactly if a buffer is read as
something else. -/
theorem digestInput_eq_iff (h : Distinct s s' p p') :
    digestInput s p = digestInput s' p' ↔ Confused s s' p p' := by
  cases p with
  | none =>
      cases p' with
      | none => exact Iff.rfl
      | some parent' => exact Iff.rfl
  | some parent =>
      cases p' with
      | none => exact Iff.rfl
      | some parent' =>
          refine iff_of_false (fun heq => ?_) id
          obtain ⟨hs, hs'⟩ := h.secret
          obtain ⟨hsecret, hparent⟩ :=
            List.append_inj heq (hs.trans hs'.symm)
          exact h.ne ⟨hsecret, congrArg some hparent⟩

/-- The results of two calls depend on the bytes exactly if the buffers fit. -/
theorem dependsOnBytes_iff (s s' : Uint8Array) (p p' : Option Uint8Array)
    (e e' : Uint8Array) :
    DependsOnBytes s s' p p' e e' ↔ BuffersFit s s' p p' e e' := by
  constructor
  · intro h
    exact ⟨fun hsame => (same_iff hsame).1 (h.same hsame),
      fun hdistinct => mt (digestInput_eq_iff hdistinct).2 (h.distinct hdistinct)⟩
  · intro h
    exact ⟨fun hsame => (same_iff hsame).2 (h.same hsame),
      fun hdistinct => mt (digestInput_eq_iff hdistinct).1 (h.distinct hdistinct)⟩

/-- Views that show their whole buffers fit. -/
theorem buffersFit_of_spans (hs : s.Spans) (hs' : s'.Spans) (he : e.Spans)
    (he' : e'.Spans) : BuffersFit s s' p p' e e' := by
  refine ⟨fun h => ?_, fun h => ?_⟩
  · rw [hs.buffer_eq, hs'.buffer_eq, he.buffer_eq, he'.buffer_eq]
    exact ⟨h.secret, h.epochId⟩
  · obtain ⟨hlength, hlength'⟩ := h.secret
    obtain ⟨hparent, hparent'⟩ := h.parent
    -- an input with a parent is longer than one without
    cases p with
    | none =>
        cases p' with
        | none =>
            rw [Confused, hs.buffer_eq, hs'.buffer_eq]
            exact fun heq => h.ne ⟨heq, rfl⟩
        | some parent' =>
            rw [Confused, hs.buffer_eq]
            intro heq
            have hcount := congrArg List.length heq
            rw [List.length_append, hlength, hlength',
              hparent' parent' rfl] at hcount
            omega
    | some parent =>
        cases p' with
        | none =>
            rw [Confused, hs'.buffer_eq]
            intro heq
            have hcount := congrArg List.length heq
            rw [List.length_append, hlength, hlength',
              hparent parent rfl] at hcount
            omega
        | some parent' => exact id

/-- The id and the key of a new epoch come from the bytes of a secret that shows
its whole buffer. -/
theorem createEpoch_eq_of_spans {Key : Type} (crypto : Crypto)
    (deriveKey : Bytes → Bytes → Bytes → AesAlgorithmName → Bool → Key)
    (now : ℕ) (members : List JsString) (algorithmName : AesAlgorithmName)
    (hs : s.Spans) (hs' : s'.Spans) (hsecret : s.bytes = s'.bytes)
    (hparent : p.map Uint8Array.bytes = p'.map Uint8Array.bytes) :
    let epoch := createEpoch crypto deriveKey now s members p algorithmName
    let epoch' := createEpoch crypto deriveKey now s' members p' algorithmName
    epoch.id = epoch'.id ∧ epoch.encryptionKey = epoch'.encryptionKey := by
  have hbuffer : s.buffer = s'.buffer := by
    rw [hs.buffer_eq, hs'.buffer_eq, hsecret]
  have hsame : SameBytes s s' p p' s s := ⟨hsecret, hparent, rfl⟩
  have hid : generateEpochId crypto s p = generateEpochId crypto s' p' := by
    rw [generateEpochId, generateEpochId, digestInput_eq_of_same hsame hbuffer]
  dsimp only [createEpoch]
  refine ⟨hid, ?_⟩
  rw [hid, deriveEpochSecret, deriveEpochSecret, hbuffer]

end TwoCalls

/-- The first half of a buffer. -/
def firstHalf (rest : UInt8) : Uint8Array :=
  ⟨List.replicate 32 7 ++ List.replicate 32 rest, 0, 32, by simp⟩

/-- The second half of the same buffer. -/
def secondHalf (rest : UInt8) : Uint8Array :=
  ⟨List.replicate 32 7 ++ List.replicate 32 rest, 32, 32, by simp⟩

/-- Views of equal bytes whose buffers differ have different inputs, and the two
halves of one buffer have the same input. -/
theorem dependsOnBytes_fails :
    ¬ DependsOnBytes (firstHalf 1) (firstHalf 2) none none (firstHalf 1)
        (firstHalf 1) ∧
      ¬ DependsOnBytes (firstHalf 1) (secondHalf 1) none none (firstHalf 1)
        (firstHalf 1) := by
  constructor
  · intro h
    have hsame : SameBytes (firstHalf 1) (firstHalf 2) none none (firstHalf 1)
        (firstHalf 1) := ⟨by decide, rfl, rfl⟩
    exact absurd ((same_iff hsame).1 (h.same hsame)).1 (by decide)
  · intro h
    exact h.distinct ⟨by decide, by simp, by decide⟩ rfl

end Collabswarm.Epochs
