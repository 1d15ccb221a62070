import Collabswarm.Document.CollabswarmDocument
import Collabswarm.Support.Transition
import Collabswarm.Wire.SignatureSurvival

/-!
# Welcomes that wait for the readers ACL

A Welcome that reaches its recipient before the ACL change that makes the
recipient a reader is parked, keyed by the hexadecimal digits of its epoch id,
and evaluated again after every merge of the readers ACL.  The buffer holds a
bounded number of entries for a bounded time, and it is filled before any
signature is checked.

The signature check, the seal and the encodings of keys are parameters.  A
merge of the readers ACL leaves an arbitrary set of readers, and the drain it
starts has ended before the next event.
-/

namespace Collabswarm.Document

open BeeKEM Wire

/-! ## The gates -/

/-- `WelcomeMalformedReason`. -/
inductive WelcomeMalformedReason where
  | wrongDocument
  | missingWelcomeEpochId
  | missingWelcomeRecipient
  | missingRecipientKemPublicKey
  | invalidRecipientKemPublicKeyLength
  | missingEciesSealed
deriving DecidableEq, Repr

/-- `WelcomeUnauthorizedReason`. -/
inductive WelcomeUnauthorizedReason where
  | notInReadersAcl
  | missingSignature
  | invalidSignature
deriving DecidableEq, Repr

/-- `WelcomeValidationResult`. -/
inductive WelcomeValidationResult where
  | accept
  | dropNotForUs
  | dropMalformed (reason : WelcomeMalformedReason)
  | dropUnauthorized (reason : WelcomeUnauthorizedReason)
deriving DecidableEq, Repr

/-- `WelcomeValidationDeps`. -/
structure WelcomeValidationDeps (U : Type) where
  documentPath : JsString
  localUserPublicKey : U
  serializePublicKey : U → JsString
  isReader : U → Bool
  verifyWriterSignature : Bytes → JsString → Bool
  serializeSyncMessage : Wire.SyncMessage → Bytes

/-- A field is present and not empty. -/
def isGiven {α : Type} (field : Option (List α)) : Bool :=
  field.any fun value => value.length ≠ 0

/-- `evaluateBeeKEMWelcome`. -/
def evaluateBeeKEMWelcome {U : Type} (message : Wire.SyncMessage)
    (deps : WelcomeValidationDeps U) : WelcomeValidationResult :=
  if message.documentId ≠ [] ∧ message.documentId ≠ deps.documentPath then
    .dropMalformed .wrongDocument
  else if isGiven message.welcomeEpochId = false then
    .dropMalformed .missingWelcomeEpochId
  else if isGiven message.welcomeRecipient = false then
    .dropMalformed .missingWelcomeRecipient
  else if isGiven message.welcomeRecipientKemPublicKey = false then
    .dropMalformed .missingRecipientKemPublicKey
  else if message.welcomeRecipientKemPublicKey.map List.length ≠
      some eciesP256PublicKeyLength then
    .dropMalformed .invalidRecipientKemPublicKeyLength
  else if isGiven message.eciesSealed = false then
    .dropMalformed .missingEciesSealed
  else if message.welcomeRecipient ≠
      some (deps.serializePublicKey deps.localUserPublicKey) then
    .dropNotForUs
  else if deps.isReader deps.localUserPublicKey = false then
    .dropUnauthorized .notInReadersAcl
  else
    match message.signature with
    | none | some [] => .dropUnauthorized .missingSignature
    | some signature =>
        if deps.verifyWriterSignature
            (deps.serializeSyncMessage message.withoutSignature) signature then
          .accept
        else .dropUnauthorized .invalidSignature

/-! ## The recipient -/

/-- What a sealed payload opens to. -/
structure WelcomeSealedPayload (K : Type) where
  keychainChanges : List (PushOp (Bytes × K))
  beekemWelcome : Option Welcome

/-- What the recipient is configured with: the path of the document, the
encodings, the check of a writer's signature, and `eciesOpen` with the decoding
of the plaintext, which may throw. -/
structure WelcomeConfig (U K : Type) where
  documentPath : JsString
  serializePublicKey : U → JsString
  verifyWriterSignature : Bytes → JsString → Bool
  serializeSyncMessage : Wire.SyncMessage → Bytes
  exportKey : PublicKey → Bytes
  openSealed : PrivateKey → Bytes → Option (WelcomeSealedPayload K)

/-- An entry of `_pendingWelcomes`. -/
structure PendingWelcome where
  message : Wire.SyncMessage
  bufferedAtMs : ℤ

/-- A document with its buffer of Welcomes. -/
structure WelcomeRecipient (U C K : Type) where
  document : CollabswarmDocument U C Bytes K
  pendingWelcomes : InsertionMap JsString PendingWelcome

/-- `_PENDING_WELCOMES_MAX_ENTRIES`. -/
def pendingWelcomesMaxEntries : ℕ := 16

/-- `_PENDING_WELCOMES_TTL_MS`. -/
def pendingWelcomesTtlMs : ℤ := 5 * 60 * 1000

/-- The two hexadecimal digits of a byte. -/
def hexByte (byte : UInt8) : JsString :=
  JsString.ofChars
    [Json.hexDigit (byte.toNat / 16), Json.hexDigit (byte.toNat % 16)]

/-- `_hexEncode`. -/
def hexEncode (bytes : Bytes) : JsString := bytes.flatMap hexByte

/-- Distinct numbers below sixteen have distinct digits. -/
theorem ofChars_hexDigit_inj : ∀ m n : Fin 16,
    JsString.ofChars [Json.hexDigit m] = JsString.ofChars [Json.hexDigit n] →
      m = n := by
  decide

theorem length_ofChars_hexDigit : ∀ m : Fin 16,
    (JsString.ofChars [Json.hexDigit m]).length = 1 := by
  decide

theorem hexByte_eq (byte : UInt8) :
    ∃ high low : Fin 16, byte.toNat = 16 * high + low ∧
      hexByte byte = JsString.ofChars [Json.hexDigit high] ++
        JsString.ofChars [Json.hexDigit low] := by
  have hbyte := byte.toNat_lt
  refine ⟨⟨byte.toNat / 16, by omega⟩, ⟨byte.toNat % 16, by omega⟩, ?_, ?_⟩
  · dsimp only
    omega
  · simp [hexByte, JsString.ofChars]

/-- Distinct epoch ids have distinct keys. -/
theorem hexEncode_injective : Function.Injective hexEncode := by
  intro bytes
  induction bytes with
  | nil =>
      intro bytes' h
      cases bytes' with
      | nil => rfl
      | cons byte bytes' =>
          obtain ⟨high, low, _, hdigits⟩ := hexByte_eq byte
          have hlength := congrArg List.length h
          simp [hexEncode, hdigits, length_ofChars_hexDigit] at hlength
          omega
  | cons byte bytes ih =>
      intro bytes' h
      obtain ⟨high, low, hbyte, hdigits⟩ := hexByte_eq byte
      cases bytes' with
      | nil =>
          have hlength := congrArg List.length h
          simp [hexEncode, hdigits, length_ofChars_hexDigit] at hlength
      | cons byte' bytes' =>
          obtain ⟨high', low', hbyte', hdigits'⟩ := hexByte_eq byte'
          simp only [hexEncode, List.flatMap_cons, hdigits, hdigits',
            List.append_assoc] at h
          obtain ⟨hhigh, h⟩ := List.append_inj h
            (by simp only [length_ofChars_hexDigit])
          obtain ⟨hlow, h⟩ := List.append_inj h
            (by simp only [length_ofChars_hexDigit])
          have hsame : byte = byte' := by
            apply UInt8.toNat_inj.1
            rw [hbyte, hbyte', ofChars_hexDigit_inj _ _ hhigh,
              ofChars_hexDigit_inj _ _ hlow]
          rw [hsame, ih h]

/-- The key under which a Welcome is buffered. -/
def pendingKey (message : Wire.SyncMessage) : JsString :=
  hexEncode (message.welcomeEpochId.getD [])

namespace WelcomeRecipient

variable {U C K : Type} [DecidableEq U] [DecidableEq K]

/-- The dependencies `_evaluateAndApplyBeeKEMWelcome` hands to the gates. -/
def deps (config : WelcomeConfig U K) (s : WelcomeRecipient U C K) :
    WelcomeValidationDeps U where
  documentPath := config.documentPath
  localUserPublicKey := s.document.user
  serializePublicKey := config.serializePublicKey
  isReader := fun pk => pk ∈ s.document.readers
  verifyWriterSignature := config.verifyWriterSignature
  serializeSyncMessage := config.serializeSyncMessage

/-- `_bufferPendingWelcome`. -/
def bufferPendingWelcome (s : WelcomeRecipient U C K)
    (message : Wire.SyncMessage) (now : ℤ) : WelcomeRecipient U C K :=
  let key := pendingKey message
  let buffer := s.pendingWelcomes.erase key
  let buffer :=
    if pendingWelcomesMaxEntries ≤ buffer.size then
      match buffer.keys.head? with
      | none => buffer
      | some oldestKey => buffer.erase oldestKey
    else buffer
  { s with pendingWelcomes := buffer.set key ⟨message, now⟩ }

/-- Open the sealed payload: the own key pair must be the one the message
names. -/
def openWelcome (config : WelcomeConfig U K)
    (kemKeyPair : Option PrivateKey) (message : Wire.SyncMessage) :
    Option (PrivateKey × WelcomeSealedPayload K) :=
  match kemKeyPair with
  | none => none
  | some sk =>
      if message.welcomeRecipientKemPublicKey =
          some (config.exportKey sk.publicKey) then
        (config.openSealed sk (message.eciesSealed.getD [])).map
          fun payload => (sk, payload)
      else none

/-- Apply what a Welcome was opened to. -/
def applyPayload (d : CollabswarmDocument U C Bytes K) (sk : PrivateKey)
    (payload : WelcomeSealedPayload K) (newEpochId : Bytes) :
    CollabswarmDocument U C Bytes K :=
  let d := { d with keychain := d.keychain.merge payload.keychainChanges }
  (d.bootstrap sk payload.beekemWelcome).recordInvitationEpoch newEpochId

/-- `_evaluateAndApplyBeeKEMWelcome`, with whether the Welcome was applied. -/
def evaluateAndApplyBeeKEMWelcome (config : WelcomeConfig U K)
    (s : WelcomeRecipient U C K) (message : Wire.SyncMessage)
    (fromBuffer : Bool) (now : ℤ) : WelcomeRecipient U C K × Bool :=
  match evaluateBeeKEMWelcome message (s.deps config) with
  | .dropNotForUs => (s, false)
  | .dropMalformed _ => (s, false)
  | .dropUnauthorized reason =>
      if reason = .notInReadersAcl ∧ fromBuffer = false ∧
          isGiven message.welcomeEpochId then
        (s.bufferPendingWelcome message now, false)
      else (s, false)
  | .accept =>
      match openWelcome config s.document.kemKeyPair message with
      | none => (s, false)
      | some (sk, payload) =>
          ({ s with
              document := applyPayload s.document sk payload
                (message.welcomeEpochId.getD []) }, true)

/-- One entry of `_drainPendingWelcomes`. -/
def drainEntry (config : WelcomeConfig U K) (now : ℤ)
    (s : WelcomeRecipient U C K) (entry : JsString × PendingWelcome) :
    WelcomeRecipient U C K :=
  if pendingWelcomesTtlMs < now - entry.2.bufferedAtMs then
    { s with pendingWelcomes := s.pendingWelcomes.erase entry.1 }
  else
    match s.evaluateAndApplyBeeKEMWelcome config entry.2.message true now with
    | (s, true) =>
        { s with pendingWelcomes := s.pendingWelcomes.erase entry.1 }
    | (s, false) => s

/-- `_drainPendingWelcomes`. -/
def drainPendingWelcomes (config : WelcomeConfig U K)
    (s : WelcomeRecipient U C K) (now : ℤ) : WelcomeRecipient U C K :=
  s.pendingWelcomes.entries.foldl (drainEntry config now) s

/-- `_mergeReaders`, with the readers after the merge. -/
def mergeReaders (config : WelcomeConfig U K) (s : WelcomeRecipient U C K)
    (readers : Finset U) (now : ℤ) : WelcomeRecipient U C K :=
  { s with document := { s.document with readers }
    }.drainPendingWelcomes config now

end WelcomeRecipient

/-- What happens at a recipient, with the reading of its clock. -/
inductive WelcomeEvent (U : Type) where
  | arrive (message : Wire.SyncMessage) (now : ℤ)
  | mergeReaders (readers : Finset U) (now : ℤ)

/-- The reading of the clock. -/
def WelcomeEvent.now {U : Type} : WelcomeEvent U → ℤ
  | .arrive _ now => now
  | .mergeReaders _ now => now

namespace WelcomeRecipient

variable {U C K : Type} [DecidableEq U] [DecidableEq K]

/-- One event. -/
def step (config : WelcomeConfig U K) (s : WelcomeRecipient U C K) :
    WelcomeEvent U → WelcomeRecipient U C K
  | .arrive message now =>
      (s.evaluateAndApplyBeeKEMWelcome config message false now).1
  | .mergeReaders readers now => s.mergeReaders config readers now

/-- The epoch ids that are buffered besides one, as keys. -/
def otherKeys (s : WelcomeRecipient U C K) (key : JsString) : List JsString :=
  s.pendingWelcomes.keys.filter (· ≠ key)

/-! ## What the gates decide -/

/-- The gates ahead of the readers ACL: the message is well formed and names
the local user. -/
def Addressed (config : WelcomeConfig U K) (user : U)
    (message : Wire.SyncMessage) : Prop :=
  (message.documentId = [] ∨ message.documentId = config.documentPath) ∧
    isGiven message.welcomeEpochId = true ∧
    message.welcomeRecipientKemPublicKey.map List.length =
      some eciesP256PublicKeyLength ∧
    isGiven message.eciesSealed = true ∧
    isGiven message.welcomeRecipient = true ∧
    message.welcomeRecipient = some (config.serializePublicKey user)

/-- The signature check. -/
def Signed (config : WelcomeConfig U K) (message : Wire.SyncMessage) : Prop :=
  ∃ signature, message.signature = some signature ∧ signature ≠ [] ∧
    config.verifyWriterSignature
      (config.serializeSyncMessage message.withoutSignature) signature = true

theorem isGiven_of_length {α : Type} {field : Option (List α)} {n : ℕ}
    (h : field.map List.length = some (n + 1)) : isGiven field = true := by
  cases field with
  | none => cases h
  | some value =>
      rw [Option.map_some, Option.some_inj] at h
      have hne : value ≠ [] := List.ne_nil_of_length_eq_add_one h
      simpa [isGiven] using hne

omit [DecidableEq K] in
/-- An addressed Welcome is judged by the readers ACL first and then by its
signature. -/
theorem evaluate_of_addressed {config : WelcomeConfig U K}
    {s : WelcomeRecipient U C K} {message : Wire.SyncMessage}
    (h : Addressed config s.document.user message) :
    (s.document.user ∉ s.document.readers →
      evaluateBeeKEMWelcome message (s.deps config) =
        .dropUnauthorized .notInReadersAcl) ∧
    (s.document.user ∈ s.document.readers → Signed config message →
      evaluateBeeKEMWelcome message (s.deps config) = .accept) := by
  obtain ⟨hdocument, hepoch, hlength, hsealed, hgiven, hrecipient⟩ := h
  rw [hrecipient] at hgiven
  have hkem := isGiven_of_length hlength
  have hpath : ¬ (message.documentId ≠ [] ∧
      message.documentId ≠ config.documentPath) := by
    tauto
  constructor
  · intro hreader
    simp [evaluateBeeKEMWelcome, deps, hpath, hepoch, hgiven, hkem, hlength,
      hsealed, hrecipient, hreader]
  · rintro hreader ⟨signature, hsignature, hne, hverify⟩
    obtain ⟨unit, units, rfl⟩ := List.exists_cons_of_ne_nil hne
    simp [evaluateBeeKEMWelcome, deps, hpath, hepoch, hgiven, hkem, hlength,
      hsealed, hrecipient, hreader, hsignature, hverify]

omit [DecidableEq K] in
/-- A Welcome that is dropped because of the readers ACL is addressed. -/
theorem addressed_of_evaluate {config : WelcomeConfig U K}
    {s : WelcomeRecipient U C K} {message : Wire.SyncMessage}
    (h : evaluateBeeKEMWelcome message (s.deps config) =
      .dropUnauthorized .notInReadersAcl) :
    Addressed config s.document.user message ∧
      s.document.user ∉ s.document.readers := by
  rw [evaluateBeeKEMWelcome] at h
  split_ifs at h with hpath hepoch hgiven hkem hlength hsealed hrecipient
    hreader
  · refine ⟨⟨?_, ?_, ?_, ?_, ?_, ?_⟩, ?_⟩
    · simp only [deps] at hpath
      tauto
    · simpa using hepoch
    · simpa using hlength
    · simpa using hsealed
    · simpa using hgiven
    · simpa [deps] using hrecipient
    · simpa [deps] using hreader
  · split at h
    · cases h
    · cases h
    · split at h <;> cases h

omit [DecidableEq K] in
/-- Only a reader's Welcome is accepted. -/
theorem reader_of_accept {config : WelcomeConfig U K}
    {s : WelcomeRecipient U C K} {message : Wire.SyncMessage}
    (h : evaluateBeeKEMWelcome message (s.deps config) = .accept) :
    s.document.user ∈ s.document.readers := by
  by_contra hreader
  rw [evaluateBeeKEMWelcome] at h
  simp only [deps, hreader, decide_false, if_true] at h
  split_ifs at h

/-! ## What a call changes -/

/-- Every operation of a keychain delta is known. -/
def Merged (d : CollabswarmDocument U C Bytes K)
    (changes : List (PushOp (Bytes × K))) : Prop :=
  ∀ op ∈ changes, op.id ∈ d.keychain.doc.all.map CausalOp.id

/-- The user, the readers and the KEM key pair are the same, and the keychain
has not lost an operation. -/
structure Grows (d d' : CollabswarmDocument U C Bytes K) : Prop where
  user : d'.user = d.user
  readers : d'.readers = d.readers
  kemKeyPair : d'.kemKeyPair = d.kemKeyPair
  all : d.keychain.doc.all ⊆ d'.keychain.doc.all

omit [DecidableEq U] [DecidableEq K] in
theorem Grows.refl (d : CollabswarmDocument U C Bytes K) : Grows d d :=
  ⟨rfl, rfl, rfl, List.Subset.refl _⟩

omit [DecidableEq U] [DecidableEq K] in
theorem Grows.trans {d d' d'' : CollabswarmDocument U C Bytes K}
    (h : Grows d d') (h' : Grows d' d'') : Grows d d'' :=
  ⟨h'.user.trans h.user, h'.readers.trans h.readers,
    h'.kemKeyPair.trans h.kemKeyPair, List.Subset.trans h.all h'.all⟩

omit [DecidableEq U] [DecidableEq K] in
theorem Merged.grows {d d' : CollabswarmDocument U C Bytes K}
    {changes : List (PushOp (Bytes × K))} (h : Merged d changes)
    (hgrows : Grows d d') : Merged d' changes :=
  fun op hop => List.map_subset _ hgrows.all (h op hop)

omit [DecidableEq U] in
theorem applyPayload_grows (d : CollabswarmDocument U C Bytes K)
    (sk : PrivateKey) (payload : WelcomeSealedPayload K) (epochId : Bytes) :
    Grows d (applyPayload d sk payload epochId) ∧
      Merged (applyPayload d sk payload epochId) payload.keychainChanges := by
  set merged : CollabswarmDocument U C Bytes K :=
    { d with keychain := d.keychain.merge payload.keychainChanges }
  have hreceive := CausalLog.receive_spec d.keychain.doc payload.keychainChanges
  obtain ⟨beekem, hbootstrap⟩ : ∃ beekem,
      merged.bootstrap sk payload.beekemWelcome = { merged with beekem } := by
    rw [CollabswarmDocument.bootstrap.eq_def]
    split
    · exact ⟨merged.beekem, rfl⟩
    · split
      · exact ⟨merged.beekem, rfl⟩
      · exact ⟨_, rfl⟩
  obtain ⟨cache, invitationEpoch, hrecord⟩ :=
    CollabswarmDocument.recordInvitationEpoch_eq { merged with beekem } epochId
  have happly : applyPayload d sk payload epochId = { merged with
      beekem
      keychain := { merged.keychain with cache }
      invitationEpoch } := by
    rw [applyPayload, hbootstrap, hrecord]
  rw [happly]
  exact ⟨⟨rfl, rfl, rfl, hreceive.2.2.1⟩, hreceive.2.2.2.1⟩

/-- A call parks the message, applies it, or does nothing. -/
theorem evaluateAndApply_cases (config : WelcomeConfig U K)
    (s : WelcomeRecipient U C K) (message : Wire.SyncMessage)
    (fromBuffer : Bool) (now : ℤ) :
    s.evaluateAndApplyBeeKEMWelcome config message fromBuffer now = (s, false) ∨
    (fromBuffer = false ∧ Addressed config s.document.user message ∧
      s.document.user ∉ s.document.readers ∧
      s.evaluateAndApplyBeeKEMWelcome config message fromBuffer now =
        (s.bufferPendingWelcome message now, false)) ∨
    s.document.user ∈ s.document.readers ∧
      ∃ document, Grows s.document document ∧
        s.evaluateAndApplyBeeKEMWelcome config message fromBuffer now =
          ({ s with document }, true) := by
  rw [evaluateAndApplyBeeKEMWelcome]
  split
  · exact Or.inl rfl
  · exact Or.inl rfl
  · rename_i reason hevaluate
    split
    · rename_i hreason
      obtain ⟨rfl, hfresh, _⟩ := hreason
      obtain ⟨haddressed, hreader⟩ := addressed_of_evaluate hevaluate
      exact Or.inr (Or.inl ⟨hfresh, haddressed, hreader, rfl⟩)
    · exact Or.inl rfl
  · rename_i hevaluate
    split
    · exact Or.inl rfl
    · exact Or.inr (Or.inr ⟨reader_of_accept hevaluate, _,
        (applyPayload_grows _ _ _ _).1, rfl⟩)

/-- A user who is not a reader has no buffered Welcome applied. -/
theorem evaluateAndApply_of_not_reader (config : WelcomeConfig U K)
    {s : WelcomeRecipient U C K} (message : Wire.SyncMessage) (now : ℤ)
    (hreader : s.document.user ∉ s.document.readers) :
    s.evaluateAndApplyBeeKEMWelcome config message true now = (s, false) := by
  rcases s.evaluateAndApply_cases config message true now with
    h | ⟨hfresh, _⟩ | ⟨hmember, _⟩
  · exact h
  · cases hfresh
  · exact absurd hmember hreader

/-- The message is addressed and signed by a writer, and it opens to a payload
with the changes. -/
structure Delivers (config : WelcomeConfig U K)
    (d : CollabswarmDocument U C Bytes K)
    (changes : List (PushOp (Bytes × K))) (message : Wire.SyncMessage) :
    Prop where
  addressed : Addressed config d.user message
  signed : Signed config message
  opens : ∃ sk payload,
    openWelcome config d.kemKeyPair message = some (sk, payload) ∧
      changes ⊆ payload.keychainChanges

omit [DecidableEq U] [DecidableEq K] in
theorem Delivers.grows {config : WelcomeConfig U K}
    {d d' : CollabswarmDocument U C Bytes K}
    {changes : List (PushOp (Bytes × K))} {message : Wire.SyncMessage}
    (h : Delivers config d changes message) (hgrows : Grows d d') :
    Delivers config d' changes message := by
  refine ⟨?_, h.signed, ?_⟩
  · rw [hgrows.user]
    exact h.addressed
  · rw [hgrows.kemKeyPair]
    exact h.opens

/-- A reader's call merges the changes of a message that delivers them. -/
theorem Delivers.merged {config : WelcomeConfig U K}
    {s : WelcomeRecipient U C K} {changes : List (PushOp (Bytes × K))}
    {message : Wire.SyncMessage} (h : Delivers config s.document changes message)
    (hreader : s.document.user ∈ s.document.readers) (fromBuffer : Bool)
    (now : ℤ) :
    Merged (s.evaluateAndApplyBeeKEMWelcome config message fromBuffer
      now).1.document changes := by
  obtain ⟨sk, payload, hopen, hsub⟩ := h.opens
  have hevaluate := (evaluate_of_addressed h.addressed).2 hreader h.signed
  rw [evaluateAndApplyBeeKEMWelcome, hevaluate]
  simp only [hopen]
  have hmerged := (applyPayload_grows s.document sk payload
    (message.welcomeEpochId.getD [])).2
  exact fun op hop => hmerged op (hsub hop)

/-! ## The buffer -/

omit [DecidableEq U] [DecidableEq K] in
/-- A Welcome is found under its key right after it was buffered. -/
theorem get?_bufferPendingWelcome_self (s : WelcomeRecipient U C K)
    (message : Wire.SyncMessage) (now : ℤ) :
    (s.bufferPendingWelcome message now).pendingWelcomes.get?
      (pendingKey message) = some ⟨message, now⟩ :=
  InsertionMap.get?_set_self _ _ _

omit [DecidableEq U] [DecidableEq K] in
/-- Buffering a Welcome of another epoch evicts an entry only where it leaves
a full buffer of other epochs. -/
theorem get?_bufferPendingWelcome_of_ne {s : WelcomeRecipient U C K}
    {message : Wire.SyncMessage} {now : ℤ} {key : JsString}
    {entry : PendingWelcome} (hne : pendingKey message ≠ key)
    (hentry : s.pendingWelcomes.get? key = some entry)
    (hroom : ((s.bufferPendingWelcome message now).otherKeys key).length <
      pendingWelcomesMaxEntries) :
    (s.bufferPendingWelcome message now).pendingWelcomes.get? key =
      some entry := by
  set buffer := s.pendingWelcomes.erase (pendingKey message) with hbuffer
  have hkept : buffer.get? key = some entry := by
    rw [hbuffer, InsertionMap.get?_erase, if_neg hne.symm, hentry]
  have hfresh : pendingKey message ∉ buffer.keys := by
    rw [hbuffer, InsertionMap.keys_erase]
    simp
  by_cases hfull : pendingWelcomesMaxEntries ≤ buffer.size
  · obtain ⟨oldest, holdest⟩ : ∃ oldest, buffer.keys.head? = some oldest := by
      apply Option.isSome_iff_exists.1
      have hpos : buffer.keys ≠ [] := by
        intro hempty
        rw [← InsertionMap.length_keys, hempty] at hfull
        simp [pendingWelcomesMaxEntries] at hfull
      simpa using hpos
    have hresult : (s.bufferPendingWelcome message now).pendingWelcomes =
        (buffer.erase oldest).set (pendingKey message) ⟨message, now⟩ := by
      simp only [bufferPendingWelcome, ← hbuffer, if_pos hfull, holdest]
    have hkey : key ≠ oldest := by
      rintro rfl
      have hsize := buffer.size_erase_of_mem
        (buffer.mem_keys_iff.2 (by rw [hkept]; rfl))
      have hothers : (s.bufferPendingWelcome message now).otherKeys key =
          (buffer.erase key).keys ++ [pendingKey message] := by
        rw [otherKeys, hresult, InsertionMap.keys_set_of_fresh,
          List.filter_append]
        · simp [InsertionMap.keys_erase, hne]
        · rw [InsertionMap.keys_erase]
          exact fun hmem => hfresh (List.mem_of_mem_filter hmem)
      rw [hothers, List.length_append, InsertionMap.length_keys] at hroom
      simp only [List.length_singleton] at hroom
      omega
    rw [hresult, InsertionMap.get?_set_of_ne _ _ hne.symm,
      InsertionMap.get?_erase, if_neg hkey, hkept]
  · have hresult : (s.bufferPendingWelcome message now).pendingWelcomes =
        buffer.set (pendingKey message) ⟨message, now⟩ := by
      simp only [bufferPendingWelcome, ← hbuffer, if_neg hfull]
    rw [hresult, InsertionMap.get?_set_of_ne _ _ hne.symm, hkept]

/-! ## Draining -/

theorem drainEntry_grows (config : WelcomeConfig U K) (now : ℤ)
    (s : WelcomeRecipient U C K) (entry : JsString × PendingWelcome) :
    Grows s.document (drainEntry config now s entry).document := by
  rw [drainEntry]
  split
  · exact .refl _
  · rcases s.evaluateAndApply_cases config entry.2.message true now with
      h | ⟨hfresh, _⟩ | ⟨_, document, hgrows, h⟩
    · rw [h]
      exact .refl _
    · cases hfresh
    · rw [h]
      exact hgrows

theorem foldl_drainEntry_grows (config : WelcomeConfig U K) (now : ℤ) :
    ∀ (entries : List (JsString × PendingWelcome))
      (s : WelcomeRecipient U C K),
      Grows s.document (entries.foldl (drainEntry config now) s).document := by
  intro entries
  induction entries with
  | nil =>
      intro s
      exact .refl _
  | cons entry entries ih =>
      intro s
      exact (drainEntry_grows config now s entry).trans (ih _)

/-- An entry that is not stale and delivers the changes has them merged by the
drain of a reader. -/
theorem drainPendingWelcomes_merged {config : WelcomeConfig U K} {now : ℤ}
    {s : WelcomeRecipient U C K} {key : JsString} {entry : PendingWelcome}
    {changes : List (PushOp (Bytes × K))}
    (hentry : s.pendingWelcomes.get? key = some entry)
    (hfresh : now - entry.bufferedAtMs ≤ pendingWelcomesTtlMs)
    (hdelivers : Delivers config s.document changes entry.message)
    (hreader : s.document.user ∈ s.document.readers) :
    Merged (s.drainPendingWelcomes config now).document changes := by
  obtain ⟨before, after, hentries⟩ :=
    List.append_of_mem (s.pendingWelcomes.mem_entries_iff.2 hentry)
  rw [drainPendingWelcomes, hentries, List.foldl_append, List.foldl_cons]
  have hbefore := foldl_drainEntry_grows config now before s
  set reached := before.foldl (drainEntry config now) s
  have hstep : Merged (drainEntry config now reached (key, entry)).document
      changes := by
    have hmerged := (hdelivers.grows hbefore).merged
      (by rwa [hbefore.user, hbefore.readers]) true now
    rw [drainEntry, if_neg (not_lt.2 hfresh)]
    rcases hcall : reached.evaluateAndApplyBeeKEMWelcome config entry.message
        true now with ⟨next, accepted⟩
    rw [hcall] at hmerged
    cases accepted with
    | false => exact hmerged
    | true => exact hmerged
  exact hstep.grows (foldl_drainEntry_grows config now after _)

/-- The drain of a user who is not a reader keeps the document and every entry
that is not stale. -/
theorem drainPendingWelcomes_kept (config : WelcomeConfig U K) {now : ℤ}
    {s : WelcomeRecipient U C K} {key : JsString} {entry : PendingWelcome}
    (hentry : s.pendingWelcomes.get? key = some entry)
    (hfresh : now - entry.bufferedAtMs ≤ pendingWelcomesTtlMs)
    (hreader : s.document.user ∉ s.document.readers) :
    (s.drainPendingWelcomes config now).document = s.document ∧
      (s.drainPendingWelcomes config now).pendingWelcomes.get? key =
        some entry := by
  have hloop : ∀ (entries : List (JsString × PendingWelcome))
      (t : WelcomeRecipient U C K),
      (∀ e ∈ entries, e ∈ s.pendingWelcomes.entries) →
      t.document = s.document ∧ t.pendingWelcomes.get? key = some entry →
      (entries.foldl (drainEntry config now) t).document = s.document ∧
        (entries.foldl (drainEntry config now) t).pendingWelcomes.get? key =
          some entry := by
    intro entries
    induction entries with
    | nil =>
        intro t _ ht
        exact ht
    | cons e entries ih =>
        intro t hmem ht
        apply ih _ fun e' he' => hmem e' (List.mem_cons_of_mem _ he')
        rw [drainEntry, t.evaluateAndApply_of_not_reader config e.2.message now
          (by rwa [ht.1])]
        split
        · rename_i hstale
          refine ⟨ht.1, ?_⟩
          rw [InsertionMap.get?_erase, if_neg, ht.2]
          rintro rfl
          have he := s.pendingWelcomes.mem_entries_iff.1
            (hmem e List.mem_cons_self)
          rw [hentry, Option.some_inj] at he
          rw [← he] at hstale
          exact absurd hfresh (not_le.2 hstale)
        · exact ht
  exact hloop _ s (fun _ he => he) ⟨rfl, hentry⟩

/-! ## Runs -/

theorem step_grows (config : WelcomeConfig U K) (s : WelcomeRecipient U C K)
    (event : WelcomeEvent U) :
    ∃ readers, Grows { s.document with readers }
      (s.step config event).document := by
  cases event with
  | arrive message now =>
      refine ⟨s.document.readers, ?_⟩
      rw [step]
      rcases s.evaluateAndApply_cases config message false now with
        h | ⟨_, _, _, h⟩ | ⟨_, document, hgrows, h⟩
      · rw [h]
        exact .refl _
      · rw [h]
        exact .refl _
      · rw [h]
        exact hgrows
  | mergeReaders readers now =>
      exact ⟨readers, foldl_drainEntry_grows config now
        s.pendingWelcomes.entries
        { s with document := { s.document with readers } }⟩

/-- The changes are merged, or the user is not a reader yet and an entry that
delivers them is buffered and is not stale at any later event. -/
def Held (config : WelcomeConfig U K) (key : JsString)
    (changes : List (PushOp (Bytes × K))) (later : List (WelcomeEvent U))
    (s : WelcomeRecipient U C K) : Prop :=
  Merged s.document changes ∨
    s.document.user ∉ s.document.readers ∧
      ∃ entry, s.pendingWelcomes.get? key = some entry ∧
        Delivers config s.document changes entry.message ∧
        ∀ event ∈ later,
          event.now - entry.bufferedAtMs ≤ pendingWelcomesTtlMs

/-- An arrival does not displace the changes: a Welcome of their epoch that
passes the gates ahead of the readers ACL delivers them too. -/
def Undisplaced (config : WelcomeConfig U K)
    (d : CollabswarmDocument U C Bytes K) (epochId : Option Bytes)
    (changes : List (PushOp (Bytes × K))) : WelcomeEvent U → Prop
  | .arrive message _ =>
      Addressed config d.user message → message.welcomeEpochId = epochId →
        Delivers config d changes message
  | .mergeReaders _ _ => True

omit [DecidableEq U] [DecidableEq K] in
theorem Undisplaced.grows {config : WelcomeConfig U K}
    {d d' : CollabswarmDocument U C Bytes K} {epochId : Option Bytes}
    {changes : List (PushOp (Bytes × K))} {event : WelcomeEvent U}
    (h : Undisplaced config d epochId changes event)
    (huser : d'.user = d.user) (hkem : d'.kemKeyPair = d.kemKeyPair) :
    Undisplaced config d' epochId changes event := by
  cases event with
  | mergeReaders readers now => trivial
  | arrive message now =>
      intro haddressed hepoch
      rw [huser] at haddressed
      obtain ⟨_, hsigned, hopens⟩ := h haddressed hepoch
      exact ⟨by rwa [huser], hsigned, by rwa [hkem]⟩

/-- Addressed Welcomes with one key have one epoch id. -/
theorem epochId_eq_of_pendingKey_eq {message message' : Wire.SyncMessage}
    (h : isGiven message.welcomeEpochId = true)
    (h' : isGiven message'.welcomeEpochId = true)
    (hkey : pendingKey message = pendingKey message') :
    message.welcomeEpochId = message'.welcomeEpochId := by
  have hgetD := hexEncode_injective hkey
  rcases hepoch : message.welcomeEpochId with _ | epochId
  · rw [hepoch] at h
    cases h
  · rcases hepoch' : message'.welcomeEpochId with _ | epochId'
    · rw [hepoch'] at h'
      cases h'
    · rw [hepoch, hepoch'] at hgetD
      exact congrArg some hgetD

/-- What one event keeps. -/
theorem Held.step {config : WelcomeConfig U K} {original : Wire.SyncMessage}
    {changes : List (PushOp (Bytes × K))} {event : WelcomeEvent U}
    {later : List (WelcomeEvent U)} {s : WelcomeRecipient U C K}
    (h : Held config (pendingKey original) changes (event :: later) s)
    (hgiven : isGiven original.welcomeEpochId = true)
    (hroom : ((s.step config event).otherKeys (pendingKey original)).length <
      pendingWelcomesMaxEntries)
    (hclock : ∀ event' ∈ later,
      event'.now - event.now ≤ pendingWelcomesTtlMs)
    (hundisplaced : Undisplaced config s.document original.welcomeEpochId
      changes event) :
    Held config (pendingKey original) changes later (s.step config event) := by
  rcases h with hmerged | ⟨hreader, entry, hentry, hdelivers, hfresh⟩
  · obtain ⟨readers, hgrows⟩ := s.step_grows config event
    exact Or.inl (Merged.grows (d := { s.document with readers }) hmerged
      hgrows)
  · have hlater : ∀ event' ∈ later,
        event'.now - entry.bufferedAtMs ≤ pendingWelcomesTtlMs :=
      fun event' hmem => hfresh event' (List.mem_cons_of_mem _ hmem)
    cases event with
    | arrive message now =>
        rw [WelcomeRecipient.step] at hroom ⊢
        rcases s.evaluateAndApply_cases config message false now with
          hcall | ⟨_, haddressed, _, hcall⟩ | ⟨hmember, _⟩
        · rw [hcall]
          exact Or.inr ⟨hreader, entry, hentry, hdelivers, hlater⟩
        · rw [hcall] at hroom ⊢
          refine Or.inr ⟨hreader, ?_⟩
          by_cases hkey : pendingKey message = pendingKey original
          · have hepoch := epochId_eq_of_pendingKey_eq haddressed.2.1 hgiven
              hkey
            refine ⟨⟨message, now⟩, ?_, hundisplaced haddressed hepoch, hclock⟩
            rw [← hkey]
            exact s.get?_bufferPendingWelcome_self message now
          · exact ⟨entry, get?_bufferPendingWelcome_of_ne hkey hentry hroom,
              hdelivers, hlater⟩
        · exact absurd hmember hreader
    | mergeReaders readers now =>
        have hnow : now - entry.bufferedAtMs ≤ pendingWelcomesTtlMs :=
          hfresh _ List.mem_cons_self
        set merged : WelcomeRecipient U C K :=
          { s with document := { s.document with readers } } with hmerged
        have hdelivers' : Delivers config merged.document changes
            entry.message :=
          ⟨hdelivers.addressed, hdelivers.signed, hdelivers.opens⟩
        by_cases hmember : s.document.user ∈ readers
        · exact Or.inl (drainPendingWelcomes_merged (s := merged) hentry hnow
            hdelivers' hmember)
        · obtain ⟨hdocument, hkept⟩ := drainPendingWelcomes_kept
            config (s := merged) hentry hnow hmember
          refine Or.inr ⟨?_, entry, hkept, ?_, hlater⟩
          · rw [WelcomeRecipient.step, WelcomeRecipient.mergeReaders,
              ← hmerged, hdocument]
            exact hmember
          · rw [WelcomeRecipient.step, WelcomeRecipient.mergeReaders,
              ← hmerged, hdocument]
            exact hdelivers'

theorem step_user (config : WelcomeConfig U K) (s : WelcomeRecipient U C K)
    (event : WelcomeEvent U) :
    (s.step config event).document.user = s.document.user ∧
      (s.step config event).document.kemKeyPair = s.document.kemKeyPair := by
  obtain ⟨readers, hgrows⟩ := s.step_grows config event
  exact ⟨hgrows.user, hgrows.kemKeyPair⟩

theorem exec_user (config : WelcomeConfig U K)
    (events : List (WelcomeEvent U)) (s : WelcomeRecipient U C K) :
    (exec (step config) s events).document.user = s.document.user := by
  induction events generalizing s with
  | nil => rfl
  | cons event events ih =>
      rw [exec_cons, ih]
      exact (s.step_user config event).1

/-- What a run keeps. -/
theorem Held.exec {config : WelcomeConfig U K} {original : Wire.SyncMessage}
    {changes : List (PushOp (Bytes × K))}
    (hgiven : isGiven original.welcomeEpochId = true) :
    ∀ (events : List (WelcomeEvent U)) (s : WelcomeRecipient U C K),
      Held config (pendingKey original) changes events s →
      (∀ k, ((exec (WelcomeRecipient.step config) s
        (events.take k)).otherKeys (pendingKey original)).length <
          pendingWelcomesMaxEntries) →
      (events.map WelcomeEvent.now).Pairwise
        (fun t t' => t' - t ≤ pendingWelcomesTtlMs) →
      (∀ event ∈ events, Undisplaced config s.document
        original.welcomeEpochId changes event) →
      Held config (pendingKey original) changes []
        (Collabswarm.exec (WelcomeRecipient.step config) s events) := by
  intro events
  induction events with
  | nil =>
      intro s h _ _ _
      exact h
  | cons event events ih =>
      intro s h hroom hclock hundisplaced
      rw [List.map_cons, List.pairwise_cons] at hclock
      obtain ⟨huser, hkem⟩ := s.step_user config event
      apply ih (s.step config event)
      · refine h.step hgiven (hroom 1) ?_
          (hundisplaced event List.mem_cons_self)
        exact fun event' hmem => hclock.1 _ (List.mem_map_of_mem hmem)
      · exact fun k => hroom (k + 1)
      · exact hclock.2
      · intro event' hmem
        exact (hundisplaced event' (List.mem_cons_of_mem _ hmem)).grows huser
          hkem

/-- A Welcome signed by a writer and addressed to the local user arrives before
the user is a reader.  Where at most fifteen other epoch ids are buffered, the
clock advances less than the TTL, and every Welcome of the same epoch that
passes the gates ahead of the readers ACL delivers the same changes, the
keychain delta of the Welcome is merged in every later state in which the user
is a reader. -/
theorem welcome_applied_unless_displaced (config : WelcomeConfig U K)
    (s : WelcomeRecipient U C K) (message : Wire.SyncMessage) (now : ℤ)
    (sk : PrivateKey) (payload : WelcomeSealedPayload K)
    (events : List (WelcomeEvent U))
    (hreader : s.document.user ∉ s.document.readers)
    (haddressed : Addressed config s.document.user message)
    (hsigned : Signed config message)
    (hopens : openWelcome config s.document.kemKeyPair message =
      some (sk, payload))
    (hroom : ∀ k, ((exec (step config) s
      (.arrive message now :: events.take k)).otherKeys
        (pendingKey message)).length ≤ 15)
    (hclock : (now :: events.map WelcomeEvent.now).Pairwise
      fun t t' => t' - t < pendingWelcomesTtlMs)
    (hundisplaced : ∀ event ∈ events, Undisplaced config s.document
      message.welcomeEpochId payload.keychainChanges event)
    (hadded : s.document.user ∈ (exec (step config) s
      (.arrive message now :: events)).document.readers) :
    Merged (exec (step config) s (.arrive message now :: events)).document
      payload.keychainChanges := by
  have hevaluate := (evaluate_of_addressed haddressed).1 hreader
  have harrive : s.step config (.arrive message now) =
      s.bufferPendingWelcome message now := by
    simp [step, evaluateAndApplyBeeKEMWelcome, hevaluate, haddressed.2.1]
  rw [exec_cons, harrive] at hadded ⊢
  rw [List.pairwise_cons] at hclock
  have hheld : Held config (pendingKey message) payload.keychainChanges events
      (s.bufferPendingWelcome message now) := by
    refine Or.inr ⟨hreader, _, s.get?_bufferPendingWelcome_self message now,
      ⟨haddressed, hsigned, sk, payload, hopens, List.Subset.refl _⟩, ?_⟩
    exact fun event hmem => (hclock.1 _ (List.mem_map_of_mem hmem)).le
  have hend := Held.exec haddressed.2.1 events _ hheld
    (fun k => by
      have hk := hroom k
      rw [exec_cons, harrive] at hk
      exact Nat.lt_succ_of_le hk)
    (hclock.2.imp fun h => h.le) hundisplaced
  rcases hend with hmerged | ⟨hnot, _⟩
  · exact hmerged
  · rw [exec_user] at hnot
    exact absurd hadded hnot

/-! ## A concrete recipient -/

/-- A Welcome for user 1. -/
def welcomeForOne (epochId : UInt8) (signature : Option JsString)
    (eciesSealed : UInt8) : Wire.SyncMessage where
  documentId := JsString.ofString "/doc"
  changeId := none
  signature := signature
  changes := none
  keychainChanges := none
  welcomeEpochId := some [epochId]
  welcomeRecipient := some [1]
  welcomeRecipientKemPublicKey := some (List.replicate 65 4)
  eciesSealed := some [eciesSealed]
  pathUpdate := none
  pathUpdateEpochId := none
  tipsHash := none
  tips := none
  snapshot := none
  order := SyncField.received
  nodup := nodup_received
  listed := by
    intro f _
    cases f <;> decide

/-- The Welcome a writer signed. -/
def writerWelcome : Wire.SyncMessage := welcomeForOne 7 (some [9]) 5

/-- The keychain delta of the signed Welcome. -/
def writerPayload : WelcomeSealedPayload ℕ where
  keychainChanges := [⟨1, [], ⟨[], ([7], 3)⟩⟩]
  beekemWelcome := none

/-- The only signature that verifies is the one of the signed Welcome, and only
its sealed payload opens. -/
def writerConfig : WelcomeConfig ℕ ℕ where
  documentPath := JsString.ofString "/doc"
  serializePublicKey user := [UInt16.ofNat user]
  verifyWriterSignature raw signature :=
    signature = [9] ∧
      raw = serializeSyncMessage unitPerByte writerWelcome.withoutSignature
  serializeSyncMessage := serializeSyncMessage unitPerByte
  exportKey pk := List.replicate 65 (UInt8.ofNat pk.id)
  openSealed sk eciesSealed :=
    if sk = ⟨4⟩ ∧ eciesSealed = [5] then some writerPayload else none

/-- User 1, who is not a reader yet. -/
def joiningUser : WelcomeRecipient ℕ ℕ ℕ where
  document := (CollabswarmDocument.new 1).setKemKeyPair (some ⟨4⟩)
  pendingWelcomes := .empty

theorem addressed_welcomeForOne (epochId : UInt8)
    (signature : Option JsString) (eciesSealed : UInt8) :
    Addressed writerConfig joiningUser.document.user
      (welcomeForOne epochId signature eciesSealed) :=
  ⟨Or.inr rfl, rfl, rfl, rfl, rfl, rfl⟩

theorem signed_writerWelcome : Signed writerConfig writerWelcome :=
  ⟨[9], rfl, by decide, by simp [writerConfig]⟩

theorem openWelcome_writerWelcome :
    openWelcome writerConfig joiningUser.document.kemKeyPair writerWelcome =
      some (⟨4⟩, writerPayload) := by
  rfl

/-- An unsigned Welcome of another epoch and a duplicate do no harm. -/
def harmlessEvents : List (WelcomeEvent ℕ) :=
  [.arrive (welcomeForOne 8 none 6) 10, .mergeReaders ∅ 20,
    .arrive writerWelcome 30, .mergeReaders {1} 40]

theorem welcome_applied_harmlessEvents :
    (∀ k, ((exec (step writerConfig) joiningUser
      (.arrive writerWelcome 0 :: harmlessEvents.take k)).otherKeys
        (pendingKey writerWelcome)).length ≤ 15) ∧
    Merged (exec (step writerConfig) joiningUser
      (.arrive writerWelcome 0 :: harmlessEvents)).document
      writerPayload.keychainChanges := by
  have hroom : ∀ k, ((exec (step writerConfig) joiningUser
      (.arrive writerWelcome 0 :: harmlessEvents.take k)).otherKeys
        (pendingKey writerWelcome)).length ≤ 15 := by
    have hshort : ∀ k < 5, ((exec (step writerConfig) joiningUser
      (.arrive writerWelcome 0 :: harmlessEvents.take k)).otherKeys
        (pendingKey writerWelcome)).length ≤ 15 := by
      decide +kernel
    intro k
    by_cases hk : k < 5
    · exact hshort k hk
    · have htake : harmlessEvents.take k = harmlessEvents.take 4 := by
        rw [List.take_of_length_le, List.take_of_length_le]
        · exact le_rfl
        · exact le_trans (by decide) (not_lt.1 hk)
      rw [htake]
      exact hshort 4 (by decide)
  refine ⟨hroom, welcome_applied_unless_displaced writerConfig joiningUser
    writerWelcome 0 ⟨4⟩ writerPayload harmlessEvents (by decide)
    (addressed_welcomeForOne _ _ _) signed_writerWelcome
    openWelcome_writerWelcome hroom (by decide) ?_ (by decide +kernel)⟩
  intro event hevent
  simp only [harmlessEvents, List.mem_cons, List.not_mem_nil, or_false] at hevent
  rcases hevent with rfl | rfl | rfl | rfl
  · intro _ hepoch
    exact absurd hepoch (by decide)
  · trivial
  · intro haddressed _
    exact ⟨haddressed, signed_writerWelcome, ⟨4⟩, writerPayload,
      openWelcome_writerWelcome, List.Subset.refl _⟩
  · trivial

/-- An unsigned Welcome for the same user and epoch takes the place of the
signed one, and the keychain delta is not merged when the user has become a
reader. -/
theorem unsigned_welcome_displaces :
    joiningUser.document.user ∉ joiningUser.document.readers ∧
    Addressed writerConfig joiningUser.document.user writerWelcome ∧
    Signed writerConfig writerWelcome ∧
    openWelcome writerConfig joiningUser.document.kemKeyPair writerWelcome =
      some (⟨4⟩, writerPayload) ∧
    (welcomeForOne 7 none 6).signature = none ∧
    (∀ k < 3, ((exec (step writerConfig) joiningUser
      (.arrive writerWelcome 0 :: [.arrive (welcomeForOne 7 none 6) 10,
        .mergeReaders {1} 20].take k)).otherKeys
          (pendingKey writerWelcome)).length ≤ 15) ∧
    joiningUser.document.user ∈ (exec (step writerConfig) joiningUser
      [.arrive writerWelcome 0, .arrive (welcomeForOne 7 none 6) 10,
        .mergeReaders {1} 20]).document.readers ∧
    ¬ Merged (exec (step writerConfig) joiningUser
      [.arrive writerWelcome 0, .arrive (welcomeForOne 7 none 6) 10,
        .mergeReaders {1} 20]).document writerPayload.keychainChanges := by
  refine ⟨by decide, addressed_welcomeForOne _ _ _, signed_writerWelcome,
    openWelcome_writerWelcome, rfl, by decide +kernel, by decide +kernel, ?_⟩
  rw [Merged]
  decide +kernel

end WelcomeRecipient

end Collabswarm.Document
