import Mathlib.Tactic
import Collabswarm.Crypto.Ecies
import Collabswarm.Document.PendingWelcomes
import Collabswarm.Load.TipAdvertisements
import Collabswarm.Wire.PathPrefixedHeader
import Collabswarm.Wire.WelcomeSealedPayload

/-!
# Welcomes from the writer to the reader

`_sendBeeKEMWelcome` seals the keys and the BeeKEM Welcome to the reader's key,
signs the message and sends it to every peer.  What a document opens, and takes
over, is what one of its writers sealed for its user, whoever passes the message
on; and it opens such a message whenever it arrives.
-/

namespace Collabswarm.Welcomes

open Crypto (Ecdh SealRandomness eciesSeal eciesOpen importEciesPublicKey)
open Document (evaluateBeeKEMWelcome WelcomeValidationDeps isGiven
  eciesP256PublicKeyLength)
open SharedProtocol (maxDocumentPathLength)
open Tips (SignedText bytes_ne_signedBytes eq_some_of_map_bytesJson)
open Wire

/-! ## The two sides -/

/-- What the providers and WebCrypto compute; a signature is made with the
private key of a public key. -/
structure WelcomeCrypto (U S P A : Type) where
  base64 : Base64
  ecdh : Ecdh S P A
  serializePublicKey : U → JsString
  sign : (data : Bytes) → (publicKey : U) → Bytes
  verify : (data : Bytes) → (publicKey : U) → (signature : Bytes) → Bool
  inverts : base64.Inverts
  serializePublicKey_ne_nil : ∀ user, serializePublicKey user ≠ []
  sign_ne_nil : ∀ data publicKey,
    base64.fromUint8Array (sign data publicKey) ≠ []
  verify_sign : ∀ data publicKey,
    verify data publicKey (sign data publicKey) = true

/-- A call of `_sendBeeKEMWelcome`: its arguments, what it reads of the
document and its user, and what sealing draws. -/
structure WelcomeRequest (U S : Type) where
  documentPath : JsString
  userPublicKey : U
  reader : U
  readerKemPublicKey : Bytes
  currentKeyID : Option Bytes
  payload : WelcomeSealedPayload
  randomness : SealRandomness S

/-- What a document checks a Welcome with. -/
structure WelcomeReceiver (U S : Type) where
  documentPath : JsString
  userPublicKey : U
  isReader : Bool
  writers : List U
  kemKeyPair : Option S

section Exchange

variable {U S P A : Type} (c : WelcomeCrypto U S P A)

namespace WelcomeRequest

variable (r : WelcomeRequest U S)

/-- The message before it is signed. -/
def unsigned (currentKeyID eciesSealed : Bytes) : SyncMessage where
  toSyncFields :=
    { (SyncMessage.initial r.documentPath).toSyncFields with
      welcomeEpochId := some currentKeyID
      welcomeRecipient := some (c.serializePublicKey r.reader)
      welcomeRecipientKemPublicKey := some r.readerKemPublicKey
      eciesSealed := some eciesSealed }
  order := [.documentId, .welcomeEpochId, .welcomeRecipient,
    .welcomeRecipientKemPublicKey, .eciesSealed]
  nodup := by decide
  listed := by
    intro f hf
    cases f <;> first | decide | cases hf

/-- `_signWelcomeAsWriter`. -/
def signed (message : SyncMessage) : SyncMessage :=
  message.setSignature (c.base64.fromUint8Array
    (c.sign (signedBytes c.base64 message) r.userPublicKey))

/-- The payload, sealed to the reader's key. -/
def sealedPayload (recipientKemKey : P) : Bytes :=
  eciesSeal c.ecdh r.randomness (encodeWelcomeSealedPayload c.base64 r.payload)
    recipientKemKey

/-- `_sendBeeKEMWelcome`, up to the signature; `none` where it throws. -/
def welcomeMessage : Option SyncMessage :=
  if r.readerKemPublicKey.length ≠ eciesP256PublicKeyLength then none
  else
    match r.currentKeyID, importEciesPublicKey c.ecdh r.readerKemPublicKey with
    | some currentKeyID, some recipientKemKey =>
        some (r.unsigned c currentKeyID (r.sealedPayload c recipientKemKey))
    | _, _ => none

/-- The path has a length that the header allows. -/
def pathFits : Bool :=
  let pathBytes := JsString.textEncode r.documentPath
  decide (pathBytes.length ≠ 0) &&
    decide (pathBytes.length ≤ maxDocumentPathLength)

/-- What `_sendBeeKEMWelcome` sends behind the path header. -/
def sendBeeKEMWelcome : Option Bytes :=
  (r.welcomeMessage c).bind fun message =>
    if r.pathFits then
      some (serializeSyncMessage c.base64 (r.signed c message))
    else none

end WelcomeRequest

/-- `_verifyWelcomeWriterSignature`. -/
def WelcomeCrypto.verifyWelcomeWriterSignature (writers : List U) (raw : Bytes)
    (signature : JsString) : Bool :=
  match c.base64.toUint8Array signature with
  | none => false
  | some signatureBytes =>
      writers.any fun writerKey => c.verify raw writerKey signatureBytes

namespace WelcomeReceiver

variable (d : WelcomeReceiver U S)

/-- The dependencies of the gates. -/
def deps : WelcomeValidationDeps U where
  documentPath := d.documentPath
  localUserPublicKey := d.userPublicKey
  serializePublicKey := c.serializePublicKey
  isReader := fun _ => d.isReader
  verifyWriterSignature := c.verifyWelcomeWriterSignature d.writers
  serializeSyncMessage := serializeSyncMessage c.base64

/-- `eciesOpen` and `decodeWelcomeSealedPayload`. -/
def openSealed (sk : S) (eciesSealed : Bytes) :
    Option WelcomeSealedPayload :=
  match eciesOpen c.ecdh eciesSealed sk with
  | .error _ => none
  | .ok plaintext =>
      match decodeWelcomeSealedPayload c.base64 plaintext with
      | .error _ => none
      | .ok envelope => some envelope

/-- `_evaluateAndApplyBeeKEMWelcome` up to what it opens: the epoch and the
payload that are taken over. -/
def evaluateBeeKEMWelcomeMessage (message : SyncMessage) :
    Option (Bytes × WelcomeSealedPayload) :=
  if evaluateBeeKEMWelcome message (d.deps c) ≠ .accept then none
  else
    match d.kemKeyPair with
    | none => none
    | some sk =>
        if message.welcomeRecipientKemPublicKey ≠
            some (c.ecdh.exportKey (c.ecdh.publicKey sk)) then none
        else
          (openSealed c sk (message.eciesSealed.getD [])).map
            fun payload => (message.welcomeEpochId.getD [], payload)

/-- `handleBeeKEMWelcomeRequestData`. -/
def handleBeeKEMWelcomeRequestData (payload : Bytes) :
    Option (Bytes × WelcomeSealedPayload) :=
  match deserializeSyncMessage c.base64 payload with
  | .error _ => none
  | .ok message => d.evaluateBeeKEMWelcomeMessage c message

end WelcomeReceiver

/-! ## Runs -/

/-- Other messages name no epoch of a Welcome, and no path begins with a
brace. -/
def Other : SignedText → Prop
  | .message m => m.WellFormed ∧ m.welcomeEpochId = none
  | .loadRequest documentPath =>
      ¬∃ rest, documentPath = JsString.ofString "\x7b" ++ rest
  | .snapshot _ => True

/-- The signatures that were sent, and the calls that sent a Welcome.  A
signature that is not sent is known to nobody. -/
structure WelcomeNetwork (U S : Type) where
  signatures : List (U × Bytes)
  sent : List (WelcomeRequest U S)

/-- Somebody signs something else, or `_sendBeeKEMWelcome` is called for some
document. -/
inductive WelcomeSendEvent (U S : Type) where
  | sign (signer : U) (text : SignedText)
  | send (request : WelcomeRequest U S)

namespace WelcomeNetwork

/-- Nothing is signed yet. -/
def start : WelcomeNetwork U S := ⟨[], []⟩

/-- One event. -/
def step (s : WelcomeNetwork U S) : WelcomeSendEvent U S → WelcomeNetwork U S
  | .sign signer text =>
      { s with signatures := s.signatures ++ [(signer, text.bytes c.base64)] }
  | .send r =>
      match r.welcomeMessage c with
      | none => s
      | some message =>
          if r.pathFits then
            { signatures := s.signatures ++
                [(r.userPublicKey, signedBytes c.base64 message)]
              sent := s.sent ++ [r] }
          else s

end WelcomeNetwork

/-- What is signed besides Welcomes is none. -/
def WelcomeSendEvent.Separate : WelcomeSendEvent U S → Prop
  | .sign _ text => Other text
  | .send _ => True

/-- No signature on the payload is forged. -/
def Unforged (s : WelcomeNetwork U S) (payload : Bytes) : Prop :=
  ∀ message, deserializeSyncMessage c.base64 payload = .ok message →
    ∀ signer signature,
      c.verify (signedBytes c.base64 message) signer signature = true →
        (signer, signedBytes c.base64 message) ∈ s.signatures

/-- The document is one that the Welcome is for. -/
structure WelcomeReceiver.Addressed (d : WelcomeReceiver U S)
    (r : WelcomeRequest U S) : Prop where
  path : r.documentPath = d.documentPath
  recipient : c.serializePublicKey r.reader = c.serializePublicKey d.userPublicKey
  key : ∃ sk ∈ d.kemKeyPair,
    r.readerKemPublicKey = c.ecdh.exportKey (c.ecdh.publicKey sk)

end Exchange

/-! ## A Welcome on the wire -/

section Delivery

variable {U S P A : Type} {c : WelcomeCrypto U S P A} {r : WelcomeRequest U S}
  {message : SyncMessage}

/-- What a call that does not throw signs. -/
theorem welcomeMessage_eq_some_iff :
    r.welcomeMessage c = some message ↔ ∃ currentKeyID recipientKemKey,
      r.currentKeyID = some currentKeyID ∧
      r.readerKemPublicKey = c.ecdh.exportKey recipientKemKey ∧
      message =
        r.unsigned c currentKeyID (r.sealedPayload c recipientKemKey) := by
  rw [WelcomeRequest.welcomeMessage]
  split
  · rename_i hlength
    refine iff_of_false (by simp) ?_
    rintro ⟨_, recipientKemKey, -, hkey, -⟩
    rw [hkey, c.ecdh.length_exportKey] at hlength
    exact hlength rfl
  · split
    · rename_i currentKeyID recipientKemKey hcurrent himport
      have hkey := Crypto.importEciesPublicKey_eq_some_iff.1 himport
      constructor
      · intro h
        exact ⟨currentKeyID, recipientKemKey, hcurrent, hkey,
          (Option.some.inj h).symm⟩
      · rintro ⟨currentKeyID', recipientKemKey', hcurrent', hkey', rfl⟩
        rw [hcurrent] at hcurrent'
        rw [Crypto.importEciesPublicKey_eq_some_iff.2 hkey'] at himport
        rw [Option.some.inj hcurrent', Option.some.inj himport]
    · rename_i hnone
      refine iff_of_false (by simp) ?_
      rintro ⟨currentKeyID, recipientKemKey, hcurrent, hkey, -⟩
      exact hnone _ _ hcurrent
        (Crypto.importEciesPublicKey_eq_some_iff.2 hkey)

theorem wellFormed_unsigned (currentKeyID eciesSealed : Bytes) :
    (r.unsigned c currentKeyID eciesSealed).WellFormed := by
  refine ⟨?_, ?_, ?_, ?_⟩
  · intro node hnode
    cases hnode
  · intro members hmembers
    cases hmembers
  · intro b hb
    cases hb
  · intro s hs
    cases hs

/-- The message that a receiver builds. -/
def received (c : WelcomeCrypto U S P A) (r : WelcomeRequest U S)
    (message : SyncMessage) : SyncMessage :=
  ((r.signed c message).received c.base64).build

/-- The fields that the receiver reads. -/
theorem received_unsigned (currentKeyID eciesSealed : Bytes) :
    let m := received c r (r.unsigned c currentKeyID eciesSealed)
    m.documentId = r.documentPath ∧ m.welcomeEpochId = some currentKeyID ∧
      m.welcomeRecipient = some (c.serializePublicKey r.reader) ∧
      m.welcomeRecipientKemPublicKey = some r.readerKemPublicKey ∧
      m.eciesSealed = some eciesSealed :=
  ⟨rfl, rfl, rfl, rfl, rfl⟩

theorem signature_received (message : SyncMessage) :
    (received c r message).signature = some (c.base64.fromUint8Array
      (c.sign (signedBytes c.base64 message) r.userPublicKey)) :=
  rfl

theorem deserialize_signed (h : r.welcomeMessage c = some message) :
    deserializeSyncMessage c.base64
        (serializeSyncMessage c.base64 (r.signed c message)) =
      .ok (received c r message) := by
  obtain ⟨currentKeyID, recipientKemKey, -, -, rfl⟩ :=
    welcomeMessage_eq_some_iff.1 h
  have hwf := wellFormed_unsigned (c := c) (r := r) currentKeyID
    (r.sealedPayload c recipientKemKey)
  exact deserializeSyncMessage_serialize c.inverts
    ⟨hwf.changes, hwf.pathUpdate, hwf.tipsHash, hwf.snapshot⟩

/-- The receiver verifies over the bytes that were signed. -/
theorem signedBytes_received (h : r.welcomeMessage c = some message) :
    signedBytes c.base64 (received c r message) =
      signedBytes c.base64 message := by
  obtain ⟨currentKeyID, recipientKemKey, -, -, rfl⟩ :=
    welcomeMessage_eq_some_iff.1 h
  set m := r.unsigned c currentKeyID (r.sealedPayload c recipientKemKey)
    with hm
  have hreceived : (received c r m).withoutSignature.wireMembers c.base64 =
      FieldOrder.entries SyncField.name
        ((received c r m).withoutSignature.wireValue c.base64)
        [.documentId, .welcomeEpochId, .welcomeRecipient,
          .welcomeRecipientKemPublicKey, .eciesSealed] := by
    rw [wireMembers_eq]
    rfl
  have hunsigned : m.withoutSignature.wireMembers c.base64 =
      FieldOrder.entries SyncField.name
        (m.withoutSignature.wireValue c.base64)
        [.documentId, .welcomeEpochId, .welcomeRecipient,
          .welcomeRecipientKemPublicKey, .eciesSealed] := by
    rw [wireMembers_eq]
    rfl
  rw [signedBytes, signedBytes, serializeSyncMessage, serializeSyncMessage,
    hreceived, hunsigned]
  rfl

end Delivery

/-! ## What the gates let through -/

/-- The gates of `evaluateBeeKEMWelcome`. -/
structure Passes {U : Type} (message : SyncMessage)
    (deps : WelcomeValidationDeps U) : Prop where
  path : message.documentId = [] ∨ message.documentId = deps.documentPath
  epoch : isGiven message.welcomeEpochId = true
  given : isGiven message.welcomeRecipient = true
  recipient : message.welcomeRecipient =
    some (deps.serializePublicKey deps.localUserPublicKey)
  key : message.welcomeRecipientKemPublicKey.map List.length =
    some eciesP256PublicKeyLength
  eciesSealed : isGiven message.eciesSealed = true
  reader : deps.isReader deps.localUserPublicKey = true
  signature : ∃ signature, message.signature = some signature ∧
    signature ≠ [] ∧ deps.verifyWriterSignature
      (deps.serializeSyncMessage message.withoutSignature) signature = true

theorem evaluate_eq_accept_iff {U : Type} {message : SyncMessage}
    {deps : WelcomeValidationDeps U} :
    evaluateBeeKEMWelcome message deps = .accept ↔ Passes message deps := by
  constructor
  · intro h
    rw [evaluateBeeKEMWelcome] at h
    split_ifs at h with hpath hepoch hgiven hkem hlength hsealed hrecipient
      hreader
    refine ⟨by tauto, by simpa using hepoch, by simpa using hgiven,
      not_not.1 hrecipient, not_not.1 hlength, by simpa using hsealed,
      by simpa using hreader, ?_⟩
    split at h
    · cases h
    · cases h
    · rename_i signature hne hsignature
      split at h
      · rename_i hverify
        refine ⟨signature, hsignature, ?_, hverify⟩
        rintro rfl
        exact hne rfl
      · cases h
  · intro h
    obtain ⟨signature, hsignature, hne, hverify⟩ := h.signature
    obtain ⟨unit, units, rfl⟩ := List.exists_cons_of_ne_nil hne
    have hpath : ¬ (message.documentId ≠ [] ∧
        message.documentId ≠ deps.documentPath) := by
      have hpath := h.path
      tauto
    have hgiven := h.given
    rw [h.recipient] at hgiven
    simp [evaluateBeeKEMWelcome, hpath, h.epoch, hgiven,
      Document.WelcomeRecipient.isGiven_of_length h.key, h.key, h.eciesSealed,
      h.recipient, h.reader, hsignature, hverify]

section Authenticity

variable {U S P A : Type} {c : WelcomeCrypto U S P A} {r : WelcomeRequest U S}
  {d : WelcomeReceiver U S} {message : SyncMessage}

theorem verify_of_mem {raw : Bytes} {signer : U} (h : signer ∈ d.writers) :
    c.verifyWelcomeWriterSignature d.writers raw
      (c.base64.fromUint8Array (c.sign raw signer)) = true := by
  rw [WelcomeCrypto.verifyWelcomeWriterSignature, c.inverts]
  exact List.any_eq_true.2 ⟨signer, h, c.verify_sign raw signer⟩

theorem exists_writer_of_verify {writers : List U} {raw : Bytes}
    {signature : JsString}
    (h : c.verifyWelcomeWriterSignature writers raw signature = true) :
    ∃ writer ∈ writers, ∃ bytes, c.verify raw writer bytes = true := by
  rw [WelcomeCrypto.verifyWelcomeWriterSignature] at h
  split at h
  · cases h
  · rename_i bytes _
    obtain ⟨writer, hwriter, hverify⟩ := List.any_eq_true.1 h
    exact ⟨writer, hwriter, bytes, hverify⟩

/-- A payload that was sealed to the own key is opened. -/
theorem openSealed_sealedPayload (sk : S) :
    WelcomeReceiver.openSealed c sk
      (r.sealedPayload c (c.ecdh.publicKey sk)) = some r.payload := by
  rw [WelcomeReceiver.openSealed, WelcomeRequest.sealedPayload,
    Crypto.eciesOpen_eciesSeal]
  dsimp only
  rw [decodeWelcomeSealedPayload_encode c.inverts]

theorem isGiven_some {α : Type} {value : List α} :
    isGiven (some value) = true ↔ value ≠ [] := by
  simp [isGiven]

theorem sealedPayload_ne_nil (pk : P) : r.sealedPayload c pk ≠ [] := by
  apply List.ne_nil_of_length_pos
  rw [WelcomeRequest.sealedPayload, Crypto.length_eciesSeal,
    Crypto.gcmTagLength]
  omega

theorem deps_verify : (d.deps c).verifyWriterSignature =
    c.verifyWelcomeWriterSignature d.writers := rfl

theorem deps_serialize : (d.deps c).serializeSyncMessage =
    serializeSyncMessage c.base64 := by
  rw [WelcomeReceiver.deps]

/-- The last gate. -/
theorem exists_signature {m : SyncMessage} {signature : JsString}
    (hsignature : m.signature = some signature) (hne : signature ≠ [])
    (h : c.verifyWelcomeWriterSignature d.writers (signedBytes c.base64 m)
      signature = true) :
    ∃ signature, m.signature = some signature ∧ signature ≠ [] ∧
      (d.deps c).verifyWriterSignature
        ((d.deps c).serializeSyncMessage m.withoutSignature) signature =
          true := by
  refine ⟨signature, hsignature, hne, ?_⟩
  rw [deps_verify, deps_serialize]
  exact h

theorem exportKey_injective (e : Ecdh S P A) {pk pk' : P}
    (h : e.exportKey pk = e.exportKey pk') : pk = pk' := by
  have himport := congrArg e.importKey h
  rw [e.importKey_exportKey, e.importKey_exportKey] at himport
  exact Option.some.inj himport

/-- What was sealed to the key that the request names is opened with its
private key. -/
theorem openSealed_of_key {recipientKemKey : P} {sk : S}
    (hkey : r.readerKemPublicKey = c.ecdh.exportKey recipientKemKey)
    (hown : r.readerKemPublicKey = c.ecdh.exportKey (c.ecdh.publicKey sk)) :
    WelcomeReceiver.openSealed c sk (r.sealedPayload c recipientKemKey) =
      some r.payload := by
  have hpublic : c.ecdh.publicKey sk = recipientKemKey := by
    apply exportKey_injective c.ecdh
    rw [← hown, hkey]
  rw [← hpublic, openSealed_sealedPayload]

theorem documentPath_ne_nil (h : r.pathFits = true) : r.documentPath ≠ [] := by
  intro hnil
  rw [WelcomeRequest.pathFits, hnil] at h
  exact absurd h (by decide)

/-- What a document takes over from a message that it can read. -/
theorem handle_eq_some_iff {payload : Bytes} {m : SyncMessage}
    (hm : deserializeSyncMessage c.base64 payload = .ok m)
    {result : Bytes × WelcomeSealedPayload} :
    d.handleBeeKEMWelcomeRequestData c payload = some result ↔
      Passes m (d.deps c) ∧ ∃ sk ∈ d.kemKeyPair,
        m.welcomeRecipientKemPublicKey =
          some (c.ecdh.exportKey (c.ecdh.publicKey sk)) ∧
        WelcomeReceiver.openSealed c sk (m.eciesSealed.getD []) =
          some result.2 ∧
        m.welcomeEpochId.getD [] = result.1 := by
  rw [WelcomeReceiver.handleBeeKEMWelcomeRequestData, hm]
  dsimp only
  rw [WelcomeReceiver.evaluateBeeKEMWelcomeMessage, ← evaluate_eq_accept_iff]
  by_cases haccept : evaluateBeeKEMWelcome m (d.deps c) = .accept
  · rw [if_neg (not_not.2 haccept), and_iff_right haccept]
    rcases hpair : d.kemKeyPair with _ | sk
    · simp
    · by_cases hkey : m.welcomeRecipientKemPublicKey =
          some (c.ecdh.exportKey (c.ecdh.publicKey sk))
      · simp [hkey, Prod.ext_iff]
      · simp [hkey]
  · rw [if_pos haccept]
    simp [haccept]

/-- A Welcome of a writer passes the gates of the documents of its path whose
user it names, if that is a reader. -/
theorem passes_received_iff {currentKeyID : Bytes}
    {recipientKemKey : P} (hwriter : r.userPublicKey ∈ d.writers)
    (hkey : r.readerKemPublicKey = c.ecdh.exportKey recipientKemKey)
    (hmessage : r.welcomeMessage c = some message)
    (heq : message =
      r.unsigned c currentKeyID (r.sealedPayload c recipientKemKey)) :
    Passes (received c r message) (d.deps c) ↔
      (r.documentPath = [] ∨ r.documentPath = d.documentPath) ∧
        currentKeyID ≠ [] ∧
        c.serializePublicKey r.reader = c.serializePublicKey d.userPublicKey ∧
        d.isReader = true := by
  obtain ⟨hpath, hepoch, hrecipient, hkem, hsealed⟩ := received_unsigned
    (c := c) (r := r) currentKeyID (r.sealedPayload c recipientKemKey)
  rw [← heq] at hpath hepoch hrecipient hkem hsealed
  constructor
  · intro h
    refine ⟨?_, ?_, ?_, h.reader⟩
    · rw [← hpath]
      exact h.path
    · apply isGiven_some.1
      rw [← hepoch]
      exact h.epoch
    · apply Option.some.inj
      rw [← hrecipient]
      exact h.recipient
  · rintro ⟨hpath', hepoch', hrecipient', hreader⟩
    refine ⟨?_, ?_, ?_, ?_, ?_, ?_, hreader, ?_⟩
    · rw [hpath]
      exact hpath'
    · rw [hepoch]
      exact isGiven_some.2 hepoch'
    · rw [hrecipient]
      exact isGiven_some.2 (c.serializePublicKey_ne_nil r.reader)
    · rw [hrecipient, hrecipient']
      rfl
    · rw [hkem, Option.map_some, hkey, c.ecdh.length_exportKey]
    · rw [hsealed]
      exact isGiven_some.2 (sealedPayload_ne_nil recipientKemKey)
    · apply exists_signature (signature_received message) (c.sign_ne_nil _ _)
      rw [signedBytes_received hmessage]
      exact verify_of_mem hwriter

/-- A document opens a Welcome of one of its writers if it is the one that the
Welcome is for, whoever brings it. -/
theorem handle_sendBeeKEMWelcome_iff {payload : Bytes}
    (hsend : r.sendBeeKEMWelcome c = some payload)
    (hwriter : r.userPublicKey ∈ d.writers)
    {result : Bytes × WelcomeSealedPayload} :
    d.handleBeeKEMWelcomeRequestData c payload = some result ↔
      d.Addressed c r ∧ d.isReader = true ∧ result.1 ≠ [] ∧
        r.currentKeyID = some result.1 ∧ r.payload = result.2 := by
  obtain ⟨message, hmessage, hsent⟩ := Option.bind_eq_some_iff.1 hsend
  have hfits : r.pathFits = true := by
    by_contra hfits
    rw [if_neg hfits] at hsent
    cases hsent
  rw [if_pos hfits] at hsent
  obtain rfl := Option.some.inj hsent
  have hpathne := documentPath_ne_nil hfits
  obtain ⟨currentKeyID, recipientKemKey, hcurrent, hkey, heq⟩ :=
    welcomeMessage_eq_some_iff.1 hmessage
  obtain ⟨-, hepoch, -, hkem, hsealed⟩ := received_unsigned
    (c := c) (r := r) currentKeyID (r.sealedPayload c recipientKemKey)
  rw [← heq] at hepoch hkem hsealed
  rw [handle_eq_some_iff (deserialize_signed hmessage),
    passes_received_iff hwriter hkey hmessage heq, hepoch, hkem, hsealed,
    hcurrent]
  constructor
  · rintro ⟨⟨hpath, hne, hrecipient, hreader⟩, sk, hsk, hown, hopen, hid⟩
    have hown' : r.readerKemPublicKey =
        c.ecdh.exportKey (c.ecdh.publicKey sk) := Option.some.inj hown
    rw [Option.getD_some, openSealed_of_key hkey hown'] at hopen
    rw [Option.getD_some] at hid
    refine ⟨⟨hpath.resolve_left hpathne, hrecipient, sk, hsk, hown'⟩, hreader,
      ?_, ?_, ?_⟩
    · rw [← hid]
      exact hne
    · rw [hid]
    · exact Option.some.inj hopen
  · rintro ⟨haddressed, hreader, hne, hid, hpayload⟩
    obtain ⟨sk, hsk, hown⟩ := haddressed.key
    have hid' : currentKeyID = result.1 := Option.some.inj hid
    refine ⟨⟨Or.inr haddressed.path, ?_, haddressed.recipient, hreader⟩,
      sk, hsk, ?_, ?_, ?_⟩
    · rw [hid']
      exact hne
    · rw [hown]
    · rw [Option.getD_some, openSealed_of_key hkey hown, hpayload]
    · rw [Option.getD_some, hid']

end Authenticity

/-! ## Who sent what is opened -/

section Origin

variable {U S P A : Type} {c : WelcomeCrypto U S P A} {r : WelcomeRequest U S}
  {d : WelcomeReceiver U S} {s : WelcomeNetwork U S}
  {events : List (WelcomeSendEvent U S)}

/-- A message that names an epoch is none of the other signed texts. -/
theorem bytes_ne_of_other {text : SignedText} (htext : Other text)
    {message : SyncMessage} (haccepted : AcceptedFields message.toSyncFields)
    (hepoch : isGiven message.welcomeEpochId = true) :
    text.bytes c.base64 ≠ signedBytes c.base64 message := by
  apply bytes_ne_signedBytes haccepted .welcomeEpochId
  · change message.welcomeEpochId.map _ ≠ none
    intro hnone
    rw [Option.map_eq_none_iff.1 hnone] at hepoch
    cases hepoch
  · rintro m rfl
    refine ⟨htext.1, ?_⟩
    change m.welcomeEpochId.map _ = none
    rw [htext.2, Option.map_none]
  · rintro documentPath rfl
    exact htext

/-- An accepted message with the bytes of a Welcome has its fields. -/
theorem fields_of_signedBytes_eq {m : SyncMessage}
    (haccepted : AcceptedFields m.toSyncFields)
    {currentKeyID eciesSealed : Bytes}
    (heq : signedBytes c.base64 m =
      signedBytes c.base64 (r.unsigned c currentKeyID eciesSealed)) :
    m.documentId = r.documentPath ∧ m.welcomeEpochId = some currentKeyID ∧
      m.welcomeRecipient = some (c.serializePublicKey r.reader) ∧
      m.welcomeRecipientKemPublicKey = some r.readerKemPublicKey ∧
      m.eciesSealed = some eciesSealed := by
  have hvalue := wireValue_eq_of_signedBytes_eq haccepted
    (wellFormed_unsigned currentKeyID eciesSealed) heq
  refine ⟨?_, ?_, ?_, ?_, ?_⟩
  · have hpath := hvalue .documentId
    exact Json.str.inj (Option.some.inj hpath)
  · apply eq_some_of_map_bytesJson c.inverts
    exact hvalue .welcomeEpochId
  · have hrecipient := hvalue .welcomeRecipient
    change m.welcomeRecipient.map Json.str =
      some (.str (c.serializePublicKey r.reader)) at hrecipient
    obtain ⟨recipient, hsome, hjson⟩ := Option.map_eq_some_iff.1 hrecipient
    rw [hsome, Json.str.inj hjson]
  · apply eq_some_of_map_bytesJson c.inverts
    exact hvalue .welcomeRecipientKemPublicKey
  · apply eq_some_of_map_bytesJson c.inverts
    exact hvalue .eciesSealed

variable (c) in
/-- Every signature was made on a Welcome that was sent or on another text. -/
def WelcomeNetwork.Accounted (s : WelcomeNetwork U S) : Prop :=
  ∀ signer raw, (signer, raw) ∈ s.signatures →
    (∃ text, Other text ∧ raw = text.bytes c.base64) ∨
      ∃ r ∈ s.sent, ∃ message, r.userPublicKey = signer ∧
        r.welcomeMessage c = some message ∧ r.pathFits = true ∧
        raw = signedBytes c.base64 message

namespace WelcomeNetwork

theorem accounted_start : (start : WelcomeNetwork U S).Accounted c := by
  intro signer raw hmem
  cases hmem

/-- What a call adds. -/
theorem step_send_cases (s : WelcomeNetwork U S) (r : WelcomeRequest U S) :
    s.step c (.send r) = s ∨
      ∃ message, r.welcomeMessage c = some message ∧ r.pathFits = true ∧
        s.step c (.send r) =
          { signatures := s.signatures ++
              [(r.userPublicKey, signedBytes c.base64 message)]
            sent := s.sent ++ [r] } := by
  rcases hmessage : r.welcomeMessage c with _ | message
  · left
    rw [step, hmessage]
  · by_cases hfits : r.pathFits = true
    · right
      refine ⟨message, rfl, hfits, ?_⟩
      rw [step, hmessage]
      exact if_pos hfits
    · left
      rw [step, hmessage]
      exact if_neg hfits

theorem Accounted.step (h : s.Accounted c) {e : WelcomeSendEvent U S}
    (he : e.Separate) : (s.step c e).Accounted c := by
  cases e with
  | sign signer text =>
      intro signer' raw hmem
      rcases List.mem_append.1 hmem with hmem | hmem
      · exact h signer' raw hmem
      · obtain ⟨rfl, rfl⟩ := Prod.mk.inj (List.mem_singleton.1 hmem)
        exact Or.inl ⟨text, he, rfl⟩
  | send r =>
      rcases step_send_cases (c := c) s r with
        hstep | ⟨message, hmessage, hfits, hstep⟩
      · rw [hstep]
        exact h
      · rw [hstep]
        intro signer raw hmem
        rcases List.mem_append.1 hmem with hmem | hmem
        · rcases h signer raw hmem with hother | ⟨r', hr', hsent⟩
          · exact Or.inl hother
          · exact Or.inr ⟨r', List.mem_append_left _ hr', hsent⟩
        · obtain ⟨hsigner, hraw⟩ := Prod.mk.inj (List.mem_singleton.1 hmem)
          exact Or.inr ⟨r, List.mem_append_right _ (List.mem_singleton_self r),
            message, hsigner.symm, hmessage, hfits, hraw⟩

theorem accounted_exec (hevents : ∀ e ∈ events, e.Separate)
    (h : s.Accounted c) : (exec (step c) s events).Accounted c := by
  induction events generalizing s with
  | nil => exact h
  | cons e events ih =>
      rw [List.forall_mem_cons] at hevents
      rw [exec_cons]
      exact ih hevents.2 (h.step hevents.1)

theorem mem_events_of_sent (hr : r ∈ (exec (step c) s events).sent) :
    r ∈ s.sent ∨ WelcomeSendEvent.send r ∈ events := by
  induction events generalizing s with
  | nil => exact Or.inl hr
  | cons e events ih =>
      rw [exec_cons] at hr
      rcases ih hr with hr | hr
      · cases e with
        | sign signer text => exact Or.inl hr
        | send r' =>
            rcases step_send_cases (c := c) s r' with hstep | ⟨_, -, -, hstep⟩
            · rw [hstep] at hr
              exact Or.inl hr
            · rw [hstep] at hr
              rcases List.mem_append.1 hr with hr | hr
              · exact Or.inl hr
              · rw [List.mem_singleton.1 hr]
                exact Or.inr List.mem_cons_self
      · exact Or.inr (List.mem_cons_of_mem _ hr)

end WelcomeNetwork

/-- A Welcome that is opened was sent by a writer, to the user of the
document. -/
theorem sent_of_handle (hs : s.Accounted c) {payload : Bytes}
    (hunforged : Unforged c s payload)
    {result : Bytes × WelcomeSealedPayload}
    (h : d.handleBeeKEMWelcomeRequestData c payload = some result) :
    ∃ r ∈ s.sent, r.userPublicKey ∈ d.writers ∧ d.Addressed c r ∧
      d.isReader = true ∧ r.currentKeyID = some result.1 ∧
      r.payload = result.2 := by
  rcases hm : deserializeSyncMessage c.base64 payload with error | m
  · rw [WelcomeReceiver.handleBeeKEMWelcomeRequestData, hm] at h
    cases h
  have haccepted := (accepted_of_deserialize hm).2
  obtain ⟨hpasses, sk, hsk, hown, hopen, hid⟩ := (handle_eq_some_iff hm).1 h
  obtain ⟨signature, -, -, hverify⟩ := hpasses.signature
  rw [deps_verify, deps_serialize] at hverify
  obtain ⟨writer, hwriter, bytes, hverified⟩ := exists_writer_of_verify hverify
  have hsigned := hunforged m hm writer bytes hverified
  rcases hs writer _ hsigned with
    ⟨text, htext, hraw⟩ | ⟨r, hr, message, rfl, hmessage, hfits, hraw⟩
  · exact absurd hraw.symm (bytes_ne_of_other htext haccepted hpasses.epoch)
  obtain ⟨currentKeyID, recipientKemKey, hcurrent, hkey, rfl⟩ :=
    welcomeMessage_eq_some_iff.1 hmessage
  obtain ⟨hpath, hepoch, hrecipient, hkem, hsealed⟩ :=
    fields_of_signedBytes_eq haccepted hraw
  have hown' : r.readerKemPublicKey =
      c.ecdh.exportKey (c.ecdh.publicKey sk) :=
    Option.some.inj (hkem.symm.trans hown)
  rw [hsealed, Option.getD_some, openSealed_of_key hkey hown'] at hopen
  rw [hepoch, Option.getD_some] at hid
  refine ⟨r, hr, hwriter, ⟨?_, ?_, sk, hsk, hown'⟩, hpasses.reader, ?_,
    Option.some.inj hopen⟩
  · rw [← hpath]
    apply hpasses.path.resolve_left
    rw [hpath]
    exact documentPath_ne_nil hfits
  · apply Option.some.inj
    rw [← hrecipient]
    exact hpasses.recipient
  · rw [hcurrent, hid]

end Origin

/-- If no signature is forged, what a document opens was sealed for its user by
one of its writers, at the epoch that is taken over.  And what a writer sent is
opened by exactly the documents that it is for, at any time and whoever brings
it. -/
theorem welcomes_authentic {U S P A : Type} (c : WelcomeCrypto U S P A)
    {events : List (WelcomeSendEvent U S)} (hevents : ∀ e ∈ events, e.Separate)
    (d : WelcomeReceiver U S) :
    (∀ payload result,
      Unforged c (exec (WelcomeNetwork.step c) .start events) payload →
      d.handleBeeKEMWelcomeRequestData c payload = some result →
        ∃ r, WelcomeSendEvent.send r ∈ events ∧
          r.userPublicKey ∈ d.writers ∧ d.Addressed c r ∧
          d.isReader = true ∧ r.currentKeyID = some result.1 ∧
          r.payload = result.2) ∧
    ∀ r payload, r.sendBeeKEMWelcome c = some payload →
      r.userPublicKey ∈ d.writers → ∀ result,
        d.handleBeeKEMWelcomeRequestData c payload = some result ↔
          d.Addressed c r ∧ d.isReader = true ∧ result.1 ≠ [] ∧
            r.currentKeyID = some result.1 ∧ r.payload = result.2 := by
  constructor
  · intro payload result hunforged h
    have haccounted := WelcomeNetwork.accounted_exec hevents
      (WelcomeNetwork.accounted_start (c := c))
    obtain ⟨r, hr, hsent⟩ := sent_of_handle haccounted hunforged h
    rcases WelcomeNetwork.mem_events_of_sent hr with hstart | hevent
    · cases hstart
    · exact ⟨r, hevent, hsent⟩
  · intro r payload hsend hwriter result
    exact handle_sendBeeKEMWelcome_iff hsend hwriter

/-- Keys are a byte, repeated on the wire; the shared secret of two is their
sum, and a tag in front of the data repeats it. -/
def plainEcdh : Ecdh UInt8 UInt8 UInt8 where
  publicKey sk := sk
  deriveBits publicKey privateKey := [publicKey + privateKey]
  deriveKey ikm _ _ := ikm.headD 0
  encrypt key _ data := List.replicate Crypto.gcmTagLength key ++ data
  decrypt key _ data :=
    if data.take Crypto.gcmTagLength =
        List.replicate Crypto.gcmTagLength key then
      some (data.drop Crypto.gcmTagLength)
    else none
  exportKey pk := List.replicate eciesP256PublicKeyLength pk
  importKey raw :=
    if raw = List.replicate eciesP256PublicKeyLength (raw.headD 0) then
      some (raw.headD 0)
    else none
  deriveBits_comm a b := by rw [UInt8.add_comm]
  exists_privateKey pk := ⟨pk, rfl⟩
  length_exportKey _ := List.length_replicate
  importKey_exportKey pk := if_pos rfl
  exportKey_of_importKey := by
    intro raw pk _ h
    split_ifs at h with hraw
    rw [← Option.some.inj h]
    exact hraw.symm
  length_encrypt key _ data := by
    rw [List.length_append, List.length_replicate, Nat.add_comm]
  decrypt_eq_some_iff := by
    intro key _ data plaintext
    constructor
    · intro h
      split_ifs at h with htag
      rw [← Option.some.inj h, ← htag, List.take_append_drop]
    · rintro rfl
      rw [List.take_left' List.length_replicate, if_pos rfl,
        List.drop_left' List.length_replicate]

/-- Signatures are the data and the signer. -/
def plainWelcomeCrypto : WelcomeCrypto UInt8 UInt8 UInt8 UInt8 where
  base64 := unitPerByte
  ecdh := plainEcdh
  serializePublicKey user := [user.toUInt16]
  sign data publicKey := data ++ [publicKey]
  verify data publicKey signature := decide (signature = data ++ [publicKey])
  inverts := unitPerByte_inverts
  serializePublicKey_ne_nil _ := List.cons_ne_nil _ _
  sign_ne_nil _ _ := by simp [unitPerByte]
  verify_sign _ _ := decide_eq_true rfl

/-- Writer 7 invites reader 8 at epoch 1. -/
def invitation : WelcomeRequest UInt8 UInt8 where
  documentPath := JsString.ofString "/doc"
  userPublicKey := 7
  reader := 8
  readerKemPublicKey := List.replicate eciesP256PublicKeyLength 9
  currentKeyID := some [1]
  payload := ⟨[5], none⟩
  randomness := ⟨3, List.replicate Crypto.hkdfSaltLength 0,
    List.replicate Crypto.aesNonceLength 0, List.length_replicate,
    List.length_replicate⟩

/-- The document of the reader. -/
def invited : WelcomeReceiver UInt8 UInt8 where
  documentPath := JsString.ofString "/doc"
  userPublicKey := 8
  isReader := true
  writers := [7]
  kemKeyPair := some 9

/-- The reader opens the invitation. -/
theorem welcomes_authentic_invited :
    ∃ payload, invitation.sendBeeKEMWelcome plainWelcomeCrypto = some payload ∧
      invited.handleBeeKEMWelcomeRequestData plainWelcomeCrypto payload =
        some ([1], ⟨[5], none⟩) := by
  have hevents : ∀ e ∈ [WelcomeSendEvent.send invitation], e.Separate := by
    intro e he
    rw [List.mem_singleton.1 he]
    trivial
  have hopens := (welcomes_authentic plainWelcomeCrypto hevents invited).2
  have hmessage : invitation.welcomeMessage plainWelcomeCrypto =
      some (invitation.unsigned plainWelcomeCrypto [1]
        (invitation.sealedPayload plainWelcomeCrypto 9)) :=
    welcomeMessage_eq_some_iff.2 ⟨[1], 9, rfl, rfl, rfl⟩
  have hfits : invitation.pathFits = true := by decide
  have hsend : invitation.sendBeeKEMWelcome plainWelcomeCrypto =
      some (serializeSyncMessage unitPerByte
        (invitation.signed plainWelcomeCrypto
          (invitation.unsigned plainWelcomeCrypto [1]
            (invitation.sealedPayload plainWelcomeCrypto 9)))) := by
    rw [WelcomeRequest.sendBeeKEMWelcome, hmessage, Option.bind_some,
      if_pos hfits]
    rfl
  refine ⟨_, hsend, ?_⟩
  apply (hopens invitation _ hsend (List.mem_singleton_self 7) _).2
  exact ⟨⟨rfl, rfl, 9, rfl, rfl⟩, rfl, List.cons_ne_nil _ _, rfl, rfl⟩

end Collabswarm.Welcomes
