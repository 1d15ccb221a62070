import Mathlib.Tactic
import Collabswarm.Document.LoadQuorum
import Collabswarm.Load.TipsHash
import Collabswarm.Support.Transition
import Collabswarm.Wire.AcceptedMessages
import Collabswarm.Wire.SignedRoles

/-!
# Tip advertisements

A peer that is asked for its tips signs the hash of what it serves and encrypts
it.  Nothing in the answer refers to the question or to the time, so an answer
counts whoever gives it, and whenever: the hashes that a quorum can agree on are
those that some writer has advertised before.
-/

namespace Collabswarm.Tips

open Document (TipVote ProbeOutcome LoadQuorumOrchestratorConfig
  runLoadQuorum tipsHashToHex tipsHashToHex_ne singlePeerLoad narrow
  decideLoadQuorum decideLoadQuorum_ok decideLoadQuorum_of_majority advertise
  runLoadQuorum_eq unknownDocTallyKey votesFor_advertise
  length_votesFor_advertise votesUnder_hash VotesUnder contained
  defaultQuorumQ effectiveQ probeCount_le validateLoadQuorumConfig)
open Wire

/-! ## The two sides -/

/-- What the providers and WebCrypto compute; a signature is made with the
private key of a public key. -/
structure TipCrypto (P K : Type) where
  base64 : Base64
  keyIDLength : ℕ
  nonceBits : ℕ
  digest : Bytes → Bytes
  encrypt : (data : Bytes) → (key : K) → (nonce : Bytes) → Bytes
  decrypt : (data : Bytes) → (key : K) → (nonce : Bytes) → Option Bytes
  sign : (data : Bytes) → (publicKey : P) → Bytes
  verify : (data : Bytes) → (publicKey : P) → (signature : Bytes) → Bool
  inverts : base64.Inverts
  keyIDLength_pos : 0 < keyIDLength
  length_digest : ∀ data, (digest data).length = tipsHashLength
  encrypt_ne_nil : ∀ data key nonce, encrypt data key nonce ≠ []
  decrypt_encrypt : ∀ data key nonce,
    decrypt (encrypt data key nonce) key nonce = some data
  sign_ne_nil : ∀ data publicKey,
    base64.fromUint8Array (sign data publicKey) ≠ []
  verify_sign : ∀ data publicKey,
    verify data publicKey (sign data publicKey) = true

/-- `CRDTLoadRequest`. -/
structure CRDTLoadRequest where
  documentId : JsString
  signature : Option JsString

/-- What the handler reads of an open document: its path, the readers and
writers, the own key, the heads of what is served, and the current document
key; an empty keychain has none. -/
structure TipResponder (P K : Type) (keyIDLength : ℕ) where
  documentPath : JsString
  signingEnabled : Bool
  users : List P
  userPublicKey : P
  servedFrontier : List JsString
  currentKey : Option ({ id : Bytes // id.length = keyIDLength } × K)

/-- `MAX_TIP_ADVERTISE_RESPONSE_SIZE`. -/
def maxTipAdvertiseResponseSize : ℕ := 6 * 1024

/-- What a loader reads a response with. -/
structure TipLoader (P K : Type) where
  documentPath : JsString
  signingEnabled : Bool
  writers : List P
  getKey : Bytes → Option K

section Exchange

variable {P K : Type} (c : TipCrypto P K)

/-- A nonce of the length that the provider gives it. -/
abbrev TipCrypto.Nonce : Type :=
  { nonce : Bytes // nonce.length = c.nonceBits }

/-- A signature in Base64 that is not empty verifies under one of the keys. -/
def TipCrypto.verifiesAny (raw : Bytes) (users : List P) :
    Option JsString → Bool
  | none => false
  | some signature =>
      if signature = [] then false
      else
        match c.base64.toUint8Array signature with
        | none => false
        | some signature => users.any fun user => c.verify raw user signature

namespace TipResponder

variable (r : TipResponder P K c.keyIDLength)

/-- The check of a request. -/
def authorizes (request : CRDTLoadRequest) : Bool :=
  !r.signingEnabled ||
    c.verifiesAny (loadRequestBytes request.documentId) r.users
      request.signature

/-- The hash of what is served. -/
def hash : Bytes := tipsHash c.digest (.array r.servedFrontier)

/-- The advertisement before it is signed. -/
def unsigned : SyncMessage :=
  (SyncMessage.initial r.documentPath).assign .tipsHash
    { (SyncMessage.initial r.documentPath).toSyncFields with
      tipsHash := some (r.hash c) } (by
    intro g hg
    cases g with
    | tipsHash => exact Or.inr rfl
    | _ => exact Or.inl hg)

/-- The signed advertisement; `_signAsWriter` gives the empty string where
signing is disabled. -/
def advertisement : SyncMessage :=
  (r.unsigned c).setSignature
    (if r.signingEnabled then
      c.base64.fromUint8Array
        (c.sign (signedBytes c.base64 (r.unsigned c)) r.userPublicKey)
    else [])

/-- The encrypted advertisement; without a key nothing is sent. -/
def response (nonce : c.Nonce) : Bytes :=
  match r.currentKey with
  | none => []
  | some (documentKeyID, documentKey) =>
      documentKeyID.1 ++ nonce.1 ++ c.encrypt
        (serializeSyncMessage c.base64 (r.advertisement c)) documentKey nonce.1

/-- `handleTipAdvertiseRequestData`; an empty response declines. -/
def handleTipAdvertiseRequestData (message : CRDTLoadRequest)
    (nonce : c.Nonce) : Bytes :=
  if message.documentId ≠ r.documentPath then []
  else if r.authorizes c message = false then []
  else r.response c nonce

end TipResponder

/-- The shared handler: a document that is not open is disclaimed. -/
def tipAdvertiseHandler (doc : Option (TipResponder P K c.keyIDLength))
    (request : CRDTLoadRequest) (nonce : c.Nonce) : Bytes :=
  match doc with
  | none => [0xFF]
  | some doc => doc.handleTipAdvertiseRequestData c request nonce

namespace TipLoader

variable (loader : TipLoader P K)

/-- The message in a response; `none` where it is too short, the key is not
known, or it cannot be read. -/
def openResponse (assembled : Bytes) : Option SyncMessage :=
  let headerLength := c.keyIDLength + c.nonceBits
  if assembled.length ≤ headerLength then none
  else
    match loader.getKey (assembled.take c.keyIDLength) with
    | none => none
    | some key =>
        match c.decrypt (assembled.drop headerLength) key
            ((assembled.drop c.keyIDLength).take c.nonceBits) with
        | none => none
        | some decrypted =>
            match deserializeSyncMessage c.base64 decrypted with
            | .error _ => none
            | .ok message => some message

/-- The check of the signature on an advertisement. -/
def trusts (message : SyncMessage) : Bool :=
  !loader.signingEnabled || loader.writers.isEmpty ||
    c.verifiesAny (signedBytes c.base64 message) loader.writers
      message.signature

/-- `_probeTipAdvertise`, on the response that was read. -/
def probeTipAdvertise (assembled : Bytes) : Option TipVote :=
  if maxTipAdvertiseResponseSize < assembled.length then none
  else if assembled.length = 0 then none
  else if assembled = [0xFF] then some .unknownDoc
  else
    match loader.openResponse c assembled with
    | none => none
    | some message =>
        if message.documentId ≠ loader.documentPath then none
        else if loader.trusts c message = false then none
        else
          match message.tipsHash with
          | none => none
          | some tipsHash =>
              if tipsHash.length ≠ tipsHashLength then none
              else some (.hash tipsHash)

end TipLoader

/-! ## Runs -/

/-- What else a document signs. -/
inductive SignedText where
  | message (m : SyncMessage)
  | loadRequest (documentPath : JsString)
  | snapshot (t : SnapshotTuple)

/-- The bytes that are signed. -/
def SignedText.bytes (base64 : Base64) : SignedText → Bytes
  | .message m => signedBytes base64 m
  | .loadRequest documentPath => loadRequestBytes documentPath
  | .snapshot t => snapshotPayload t

/-- Other messages carry no tip hash, and no path begins with a brace. -/
def SignedText.Other : SignedText → Prop
  | .message m => m.WellFormed ∧ m.tipsHash = none
  | .loadRequest documentPath =>
      ¬∃ rest, documentPath = JsString.ofString "\x7b" ++ rest
  | .snapshot _ => True

/-- The signatures that were made, and the states in which tips were
advertised. -/
structure TipNetwork where
  signed : List (P × Bytes)
  advertised : List (TipResponder P K c.keyIDLength × c.Nonce)

/-- Somebody signs something else, or a peer whose document is in some state
gets a request. -/
inductive TipEvent where
  | sign (signer : P) (text : SignedText)
  | request (responder : TipResponder P K c.keyIDLength)
      (message : CRDTLoadRequest) (nonce : c.Nonce)

namespace TipNetwork

/-- Nothing is signed yet. -/
def start : TipNetwork c := ⟨[], []⟩

/-- One event. -/
def step (s : TipNetwork c) : TipEvent c → TipNetwork c
  | .sign signer text =>
      { s with signed := s.signed ++ [(signer, text.bytes c.base64)] }
  | .request r message nonce =>
      if message.documentId = r.documentPath ∧ r.authorizes c message then
        { signed := s.signed ++
            (if r.signingEnabled then
              [(r.userPublicKey, signedBytes c.base64 (r.unsigned c))]
            else [])
          advertised := s.advertised ++ [(r, nonce)] }
      else s

end TipNetwork

/-- What is signed besides advertisements is none. -/
def TipEvent.Separate : TipEvent c → Prop
  | .sign _ text => text.Other
  | .request _ _ _ => True

/-- No signature in the response is forged. -/
def TipLoader.Unforged (loader : TipLoader P K) (s : TipNetwork c)
    (assembled : Bytes) : Prop :=
  ∀ message, loader.openResponse c assembled = some message →
    ∀ writer signature,
      c.verify (signedBytes c.base64 message) writer signature = true →
        (writer, signedBytes c.base64 message) ∈ s.signed

/-! ## The advertisement on the wire -/

section Advertisement

variable {c} (r : TipResponder P K c.keyIDLength)

theorem wellFormed_unsigned : (r.unsigned c).WellFormed := by
  refine ⟨?_, ?_, ?_, ?_⟩
  · intro node hnode
    cases hnode
  · intro members hmembers
    cases hmembers
  · intro b hb
    obtain rfl := Option.some.inj hb
    exact c.length_digest _
  · intro s hs
    cases hs

theorem wellFormed_advertisement : (r.advertisement c).WellFormed := by
  have h := wellFormed_unsigned r
  exact ⟨h.changes, h.pathUpdate, h.tipsHash, h.snapshot⟩

/-- The message the loader builds. -/
def received : SyncMessage := ((r.advertisement c).received c.base64).build

theorem deserialize_advertisement :
    deserializeSyncMessage c.base64
        (serializeSyncMessage c.base64 (r.advertisement c)) =
      .ok (received r) :=
  deserializeSyncMessage_serialize c.inverts (wellFormed_advertisement r)

/-- The loader verifies over the bytes that were signed. -/
theorem signedBytes_received :
    signedBytes c.base64 (received r) =
      signedBytes c.base64 (r.unsigned c) := by
  have hreceived : (received r).withoutSignature.wireMembers c.base64 =
      FieldOrder.entries SyncField.name
        ((received r).withoutSignature.wireValue c.base64)
        [.documentId, .tipsHash] := by
    rw [wireMembers_eq]
    rfl
  have hunsigned : (r.unsigned c).withoutSignature.wireMembers c.base64 =
      FieldOrder.entries SyncField.name
        ((r.unsigned c).withoutSignature.wireValue c.base64)
        [.documentId, .tipsHash] := by
    rw [wireMembers_eq]
    rfl
  rw [signedBytes, signedBytes, serializeSyncMessage, serializeSyncMessage,
    hreceived, hunsigned]
  rfl

theorem verifiesAny_sign {raw : Bytes} {users : List P} {user : P}
    (huser : user ∈ users) :
    c.verifiesAny raw users
      (some (c.base64.fromUint8Array (c.sign raw user))) = true := by
  rw [TipCrypto.verifiesAny]
  simp only [if_neg (c.sign_ne_nil raw user), c.inverts _]
  exact List.any_eq_true.2 ⟨user, huser, c.verify_sign raw user⟩

theorem exists_of_verifiesAny {raw : Bytes} {users : List P}
    {signature : Option JsString}
    (h : c.verifiesAny raw users signature = true) :
    ∃ user ∈ users, ∃ bytes, c.verify raw user bytes = true := by
  rw [TipCrypto.verifiesAny.eq_def] at h
  split at h
  · cases h
  · split at h
    · cases h
    · split at h
      · cases h
      · rename_i bytes _
        obtain ⟨user, huser, hverify⟩ := List.any_eq_true.1 h
        exact ⟨user, huser, bytes, hverify⟩

end Advertisement

/-! ## What a vote attests -/

section Votes

variable {c} {loader : TipLoader P K} {assembled : Bytes}

theorem accepted_of_openResponse {message : SyncMessage}
    (h : loader.openResponse c assembled = some message) :
    AcceptedFields message.toSyncFields := by
  rw [TipLoader.openResponse] at h
  split at h
  · cases h
  · split at h
    · cases h
    · split at h
      · cases h
      · split at h
        · cases h
        · rename_i hmessage
          obtain rfl := Option.some.inj h
          exact (accepted_of_deserialize hmessage).2

/-- A vote for a hash comes from a message about the document with that hash,
signed by a writer. -/
theorem exists_of_probe {hash : Bytes}
    (hsigning : loader.signingEnabled = true) (hwriters : loader.writers ≠ [])
    (h : loader.probeTipAdvertise c assembled = some (.hash hash)) :
    ∃ message, loader.openResponse c assembled = some message ∧
      message.documentId = loader.documentPath ∧
      message.tipsHash = some hash ∧
      ∃ writer ∈ loader.writers, ∃ signature,
        c.verify (signedBytes c.base64 message) writer signature = true := by
  rw [TipLoader.probeTipAdvertise] at h
  split at h
  · cases h
  split at h
  · cases h
  split at h
  · cases h
  split at h
  · cases h
  rename_i message hopen
  split at h
  · cases h
  rename_i hpath
  split at h
  · cases h
  rename_i htrusts
  split at h
  · cases h
  rename_i tipsHash htipsHash
  split at h
  · cases h
  cases h
  have hempty : loader.writers.isEmpty = false := by simpa using hwriters
  rw [TipLoader.trusts, hsigning, hempty] at htrusts
  obtain ⟨writer, hwriter, signature, hverify⟩ :=
    exists_of_verifiesAny (by simpa using htrusts)
  exact ⟨message, hopen, not_not.1 hpath, htipsHash, writer, hwriter,
    signature, hverify⟩

/-- A message is none of the texts that lack one of its fields. -/
theorem bytes_ne_signedBytes {base64 : Base64} {text : SignedText}
    {message : SyncMessage} (haccepted : AcceptedFields message.toSyncFields)
    (f : SyncField) (hholds : message.withoutSignature.wireValue base64 f ≠ none)
    (hmessage : ∀ m, text = .message m →
      m.WellFormed ∧ m.withoutSignature.wireValue base64 f = none)
    (hpath : ∀ documentPath, text = .loadRequest documentPath →
      ¬∃ rest, documentPath = JsString.ofString "\x7b" ++ rest) :
    text.bytes base64 ≠ signedBytes base64 message := by
  intro heq
  obtain ⟨rest, hrest⟩ := signedBytes_eq base64 message
  cases text with
  | message m =>
      obtain ⟨hwf, hnone⟩ := hmessage m rfl
      rw [← wireValue_eq_of_signedBytes_eq haccepted hwf heq.symm f] at hnone
      exact hholds hnone
  | loadRequest documentPath =>
      rw [hrest] at heq
      exact hpath documentPath rfl
        (JsString.exists_append_of_textEncode (by decide) heq)
  | snapshot t =>
      rw [hrest] at heq
      exact absurd (List.cons.inj heq).1 (by decide)

theorem eq_some_of_map_bytesJson {base64 : Base64} (hinverts : base64.Inverts)
    {field : Option Bytes} {value : Bytes}
    (h : field.map (bytesJson base64) = some (bytesJson base64 value)) :
    field = some value := by
  obtain ⟨bytes, hsome, hjson⟩ := Option.map_eq_some_iff.1 h
  have htext := congrArg base64.toUint8Array (Json.str.inj hjson)
  rw [hinverts, hinverts] at htext
  rw [hsome, Option.some.inj htext]

/-- An advertisement is none of the other signed texts. -/
theorem bytes_ne_of_other {text : SignedText} (htext : text.Other)
    {message : SyncMessage} (haccepted : AcceptedFields message.toSyncFields)
    {hash : Bytes} (hhash : message.tipsHash = some hash) :
    text.bytes c.base64 ≠ signedBytes c.base64 message := by
  apply bytes_ne_signedBytes haccepted .tipsHash
  · change message.tipsHash.map _ ≠ none
    rw [hhash]
    exact Option.some_ne_none _
  · rintro m rfl
    refine ⟨htext.1, ?_⟩
    change m.tipsHash.map _ = none
    rw [htext.2, Option.map_none]
  · rintro documentPath rfl
    exact htext

/-- A message with the bytes of an advertisement has its path and its hash. -/
theorem eq_of_signedBytes_eq {message : SyncMessage}
    (haccepted : AcceptedFields message.toSyncFields)
    {r : TipResponder P K c.keyIDLength}
    (heq : signedBytes c.base64 message =
      signedBytes c.base64 (r.unsigned c)) :
    message.documentId = r.documentPath ∧
      message.tipsHash = some (r.hash c) := by
  have hvalue := wireValue_eq_of_signedBytes_eq haccepted
    (wellFormed_unsigned r) heq
  constructor
  · have hpath := hvalue .documentId
    exact Json.str.inj (Option.some.inj hpath)
  · have hhash := hvalue .tipsHash
    change message.tipsHash.map (bytesJson c.base64) =
      some (bytesJson c.base64 (r.hash c)) at hhash
    exact eq_some_of_map_bytesJson c.inverts hhash

/-- Every signature was made on an advertisement or on another text. -/
def TipNetwork.Accounted (s : TipNetwork c) : Prop :=
  ∀ signer raw, (signer, raw) ∈ s.signed →
    (∃ text : SignedText, text.Other ∧ raw = text.bytes c.base64) ∨
      ∃ a ∈ s.advertised, a.1.userPublicKey = signer ∧
        raw = signedBytes c.base64 (a.1.unsigned c)

theorem TipNetwork.Accounted.step {s : TipNetwork c} (h : s.Accounted)
    {e : TipEvent c} (he : e.Separate) : (s.step c e).Accounted := by
  cases e with
  | sign signer text =>
      intro signer' raw hmem
      rcases List.mem_append.1 hmem with hmem | hmem
      · exact h signer' raw hmem
      · obtain ⟨rfl, rfl⟩ := Prod.mk.inj (List.mem_singleton.1 hmem)
        exact Or.inl ⟨text, he, rfl⟩
  | request r message nonce =>
      rw [TipNetwork.step]
      split
      · intro signer raw hmem
        rcases List.mem_append.1 hmem with hmem | hmem
        · rcases h signer raw hmem with hother | ⟨a, ha, hsigner, hraw⟩
          · exact Or.inl hother
          · exact Or.inr ⟨a, List.mem_append_left _ ha, hsigner, hraw⟩
        · have hnew : (r, nonce) ∈ s.advertised ++ [(r, nonce)] :=
            List.mem_append_right _ (List.mem_singleton_self _)
          by_cases hsigning : r.signingEnabled = true
          · rw [if_pos hsigning, List.mem_singleton, Prod.mk.injEq] at hmem
            exact Or.inr ⟨(r, nonce), hnew, hmem.1.symm, hmem.2⟩
          · rw [if_neg hsigning] at hmem
            cases hmem
      · exact h

theorem TipNetwork.accounted_exec {events : List (TipEvent c)}
    (hevents : ∀ e ∈ events, e.Separate) {s : TipNetwork c}
    (h : s.Accounted) : (exec (TipNetwork.step c) s events).Accounted := by
  induction events generalizing s with
  | nil => exact h
  | cons e events ih =>
      rw [List.forall_mem_cons] at hevents
      rw [exec_cons]
      exact ih hevents.2 (h.step hevents.1)

theorem TipNetwork.requested_of_advertised {events : List (TipEvent c)}
    {s : TipNetwork c} {a : TipResponder P K c.keyIDLength × c.Nonce}
    (ha : a ∈ (exec (TipNetwork.step c) s events).advertised) :
    a ∈ s.advertised ∨ ∃ message, TipEvent.request a.1 message a.2 ∈ events ∧
      a.1.authorizes c message = true := by
  induction events generalizing s with
  | nil => exact Or.inl ha
  | cons e events ih =>
      rw [exec_cons] at ha
      rcases ih ha with ha | ⟨message, hmem, hauthorized⟩
      · cases e with
        | sign signer text => exact Or.inl ha
        | request r message nonce =>
            rw [TipNetwork.step] at ha
            split at ha
            · rename_i hasked
              rcases List.mem_append.1 ha with ha | ha
              · exact Or.inl ha
              · obtain rfl := List.mem_singleton.1 ha
                exact Or.inr ⟨message, List.mem_cons_self, hasked.2⟩
            · exact Or.inl ha
      · exact Or.inr ⟨message, List.mem_cons_of_mem _ hmem, hauthorized⟩

theorem TipNetwork.accounted_start : (TipNetwork.start c).Accounted := by
  intro signer raw hmem
  cases hmem

/-- A vote for a hash was advertised by a writer. -/
theorem advertised_of_probe {s : TipNetwork c} (hs : s.Accounted)
    (hsigning : loader.signingEnabled = true) (hwriters : loader.writers ≠ [])
    (hunforged : loader.Unforged c s assembled) {hash : Bytes}
    (h : loader.probeTipAdvertise c assembled = some (.hash hash)) :
    ∃ a ∈ s.advertised, a.1.userPublicKey ∈ loader.writers ∧
      a.1.documentPath = loader.documentPath ∧ a.1.hash c = hash := by
  obtain ⟨message, hopen, hpath, hhash, writer, hwriter, signature, hverify⟩ :=
    exists_of_probe hsigning hwriters h
  have haccepted := accepted_of_openResponse hopen
  have hsigned := hunforged message hopen writer signature hverify
  rcases hs writer _ hsigned with ⟨text, htext, hraw⟩ | ⟨a, ha, rfl, hraw⟩
  · exact absurd hraw.symm (bytes_ne_of_other htext haccepted hhash)
  · obtain ⟨hpath', hhash'⟩ := eq_of_signedBytes_eq haccepted hraw
    refine ⟨a, ha, hwriter, hpath'.symm.trans hpath, ?_⟩
    exact Option.some.inj (hhash'.symm.trans hhash)

/-- A loader can read and check the response that a peer gave in some state. -/
structure TipLoader.Reads (loader : TipLoader P K)
    (a : TipResponder P K c.keyIDLength × c.Nonce) : Prop where
  path : a.1.documentPath = loader.documentPath
  signing : a.1.signingEnabled = true
  writer : a.1.userPublicKey ∈ loader.writers
  key : ∃ id key, a.1.currentKey = some (id, key) ∧
    loader.getKey id.1 = some key
  size : (a.1.response c a.2).length ≤ maxTipAdvertiseResponseSize

theorem response_eq {r : TipResponder P K c.keyIDLength} (nonce : c.Nonce)
    {id : { id : Bytes // id.length = c.keyIDLength }} {key : K}
    (h : r.currentKey = some (id, key)) :
    r.response c nonce = id.1 ++ (nonce.1 ++ c.encrypt
      (serializeSyncMessage c.base64 (r.advertisement c)) key nonce.1) := by
  rw [TipResponder.response, h, ← List.append_assoc]

theorem length_response {r : TipResponder P K c.keyIDLength} (nonce : c.Nonce)
    {id : { id : Bytes // id.length = c.keyIDLength }} {key : K}
    (h : r.currentKey = some (id, key)) :
    c.keyIDLength + c.nonceBits < (r.response c nonce).length := by
  have hpos := List.length_pos_iff.2 (c.encrypt_ne_nil
    (serializeSyncMessage c.base64 (r.advertisement c)) key nonce.1)
  rw [response_eq nonce h, List.length_append, List.length_append, id.2, nonce.2]
  omega

theorem openResponse_response
    {a : TipResponder P K c.keyIDLength × c.Nonce} (h : loader.Reads a) :
    loader.openResponse c (a.1.response c a.2) = some (received a.1) := by
  obtain ⟨id, key, hcurrent, hget⟩ := h.key
  have hlong := length_response a.2 hcurrent
  have hresponse := response_eq a.2 hcurrent
  have hkeyID : (a.1.response c a.2).take c.keyIDLength = id.1 := by
    rw [hresponse]
    exact List.take_left' id.2
  have hrest : (a.1.response c a.2).drop c.keyIDLength = a.2.1 ++ c.encrypt
      (serializeSyncMessage c.base64 (a.1.advertisement c)) key a.2.1 := by
    rw [hresponse]
    exact List.drop_left' id.2
  have hnonce : ((a.1.response c a.2).drop c.keyIDLength).take c.nonceBits =
      a.2.1 := by
    rw [hrest]
    exact List.take_left' a.2.2
  have hdata : (a.1.response c a.2).drop (c.keyIDLength + c.nonceBits) =
      c.encrypt (serializeSyncMessage c.base64 (a.1.advertisement c)) key
        a.2.1 := by
    rw [← List.drop_drop, hrest]
    exact List.drop_left' a.2.2
  rw [TipLoader.openResponse]
  simp only [if_neg (not_le.2 hlong), hkeyID, hget, hnonce, hdata,
    c.decrypt_encrypt, deserialize_advertisement]

/-- Whoever gives the response of a writer, it counts. -/
theorem probe_response {a : TipResponder P K c.keyIDLength × c.Nonce}
    (h : loader.Reads a) :
    loader.probeTipAdvertise c (a.1.response c a.2) =
      some (.hash (a.1.hash c)) := by
  obtain ⟨id, key, hcurrent, -⟩ := h.key
  have hlong := length_response a.2 hcurrent
  have hpos := c.keyIDLength_pos
  have hnotDisclaimed : a.1.response c a.2 ≠ [0xFF] := by
    intro heq
    rw [heq, List.length_singleton] at hlong
    omega
  have hpath : (received a.1).documentId = loader.documentPath := h.path
  have hhash : (received a.1).tipsHash = some (a.1.hash c) := rfl
  have hsignature : (received a.1).signature = some (c.base64.fromUint8Array
      (c.sign (signedBytes c.base64 (a.1.unsigned c)) a.1.userPublicKey)) := by
    change some (if a.1.signingEnabled = true then _ else _) = _
    rw [if_pos h.signing]
  have htrusts : loader.trusts c (received a.1) = true := by
    rw [TipLoader.trusts, signedBytes_received, hsignature,
      verifiesAny_sign h.writer, Bool.or_true]
  rw [TipLoader.probeTipAdvertise, if_neg (not_lt.2 h.size),
    if_neg (by omega), if_neg hnotDisclaimed, openResponse_response h]
  simp only [hpath, htrusts, hhash, TipResponder.hash, tipsHash,
    c.length_digest, ne_eq, not_true_eq_false, Bool.true_eq_false, if_false]

end Votes

end Exchange

/-! ## The quorum -/

section Quorum

variable {Q : Type} {peers : List Q} {peerIdOf : Q → String}
  {probeFn : Q → ProbeOutcome} {documentPath : String}
  {config : LoadQuorumOrchestratorConfig}

/-- A hash that wins has the vote of a peer. -/
theorem exists_vote_of_runLoadQuorum {narrowed : List Q} {key : String}
    (h : runLoadQuorum peers peerIdOf probeFn documentPath config =
      .ok (.ok narrowed key)) :
    ∃ p ∈ peers, ∃ hash, probeFn p = .ok (some (.hash hash)) ∧
      tipsHashToHex hash = key := by
  rw [runLoadQuorum] at h
  split at h
  · cases h
  split at h
  · cases h
  dsimp only at h
  split at h
  · cases h
  split at h
  · cases h
  rcases peers with _ | ⟨peer, peers⟩
  · cases h
  dsimp only at h
  split at h
  · rw [singlePeerLoad] at h
    split at h
    · cases h
    · cases h
    · rename_i hash hvote
      cases h
      refine ⟨peer, List.mem_cons_self, hash, ?_, rfl⟩
      rcases hprobe : probeFn peer with _ | vote
      · rw [hprobe] at hvote
        cases hvote
      · rw [hprobe] at hvote
        rw [show vote = some (.hash hash) from hvote]
  · split at h
    · cases h
    · rename_i decision hdecision
      obtain ⟨ids, responding, q, rfl⟩ :
          ∃ ids responding q, decision = .ok .tipHash key ids responding q := by
        rcases decision with ⟨_ | _, winning, ids, responding, q⟩ | _
        · rw [narrow] at h
          split at h
          · cases h
          · cases h
            exact ⟨_, _, _, rfl⟩
        · cases h
        · cases h
      obtain ⟨hids, hmany, hkind, -⟩ := decideLoadQuorum_ok hdecision
      have hkey : key ≠ unknownDocTallyKey := by
        intro heq
        cases hkind.2 heq
      have hq : 1 ≤ config.requiredQ (config.probeCount (peer :: peers)) := by
        by_contra hlt
        rw [decideLoadQuorum, if_pos (not_le.1 hlt)] at hdecision
        cases hdecision
      rw [hids, length_votesFor_advertise] at hmany
      obtain ⟨p, hp, hvoted⟩ := List.countP_pos_iff.1 (hq.trans hmany)
      obtain ⟨hash, hprobe, hhex⟩ :=
        votesUnder_hash hkey (of_decide_eq_true hvoted)
      exact ⟨p, List.take_subset _ _ hp, hash, hprobe, hhex⟩

theorem requiredQ_bounds (config : LoadQuorumOrchestratorConfig) {k : ℕ}
    (hk : 0 < k) : 1 ≤ config.requiredQ k ∧ config.requiredQ k ≤ k := by
  have hdefault : 1 ≤ defaultQuorumQ k ∧ defaultQuorumQ k ≤ k := by
    rw [defaultQuorumQ, if_neg hk.ne']
    omega
  rw [LoadQuorumOrchestratorConfig.requiredQ]
  unfold effectiveQ
  rw [if_neg hk.ne']
  split
  · exact hdefault
  · split_ifs <;> omega
  · split_ifs <;> omega

/-- A hash that every peer votes for wins. -/
theorem runLoadQuorum_unanimous (henabled : config.enabled ≠ some false)
    (hvalid : validateLoadQuorumConfig config = .ok ())
    (hk : 0 < config.probeCount peers)
    (hsingle : config.probeCount peers = 1 →
      config.allowSinglePeer = some true)
    {hash : Bytes} (h : ∀ p ∈ peers, probeFn p = .ok (some (.hash hash))) :
    ∃ narrowed, runLoadQuorum peers peerIdOf probeFn documentPath config =
      .ok (.ok narrowed (tipsHashToHex hash)) := by
  have hle := probeCount_le config peers
  by_cases hone : config.probeCount peers = 1
  · rcases peers with _ | ⟨peer, peers⟩
    · rw [hone] at hle
      exact absurd hle (by simp)
    have hon : config.enabled.getD true ≠ false := by
      rcases hconfig : config.enabled with _ | b
      · simp
      · rintro rfl
        exact henabled hconfig
    have hallowed : ¬(config.probeCount (peer :: peers) = 1 ∧
        config.allowSinglePeer.getD false = false) := by
      rw [hsingle hone]
      simp
    refine ⟨[peer], ?_⟩
    rw [runLoadQuorum, if_neg hon, hvalid]
    dsimp only
    rw [if_neg hk.ne', if_neg hallowed, if_pos hone, singlePeerLoad,
      h peer List.mem_cons_self]
    rfl
  · set probed := peers.take (config.probeCount peers) with hprobed
    have hlength : probed.length = config.probeCount peers := by
      rw [hprobed, List.length_take]
      omega
    obtain ⟨hq, hqk⟩ := requiredQ_bounds config hk
    have hvoted : ∀ key, ∀ p ∈ probed, VotesUnder probeFn key p ↔
        tipsHashToHex hash = key := by
      intro key p hp
      rw [VotesUnder, h p (List.take_subset _ _ hp)]
      simp [contained, Document.TipVote.key]
    have hall : (Document.votesFor (tipsHashToHex hash)
        (advertise peerIdOf probeFn probed)).length =
          config.probeCount peers := by
      rw [length_votesFor_advertise, ← hlength, List.countP_eq_length]
      intro p hp
      exact decide_eq_true ((hvoted _ p hp).2 rfl)
    have hothers : ∀ other, other ≠ unknownDocTallyKey →
        other ≠ tipsHashToHex hash → (Document.votesFor other
          (advertise peerIdOf probeFn probed)).length <
            config.requiredQ (config.probeCount peers) := by
      intro other _ hother
      rw [length_votesFor_advertise]
      refine lt_of_eq_of_lt (List.countP_eq_zero.2 ?_) hq
      intro p hp hvote
      exact hother ((hvoted other p hp).1 (of_decide_eq_true hvote)).symm
    obtain ⟨responding, hdecision⟩ := decideLoadQuorum_of_majority hq
      (tipsHashToHex_ne hash) (hqk.trans_eq hall.symm) hothers
    refine ⟨peers.filter (peerIdOf · ∈ Document.votesFor (tipsHashToHex hash)
      (advertise peerIdOf probeFn probed)), ?_⟩
    rw [runLoadQuorum_eq henabled hvalid (by omega) hdecision, narrow]
    have hnarrowed : (peers.filter (peerIdOf · ∈ Document.votesFor
        (tipsHashToHex hash) (advertise peerIdOf probeFn probed))).length
          ≠ 0 := by
      obtain ⟨p, hp⟩ := List.exists_mem_of_length_pos (hlength ▸ hk)
      have hmem : peerIdOf p ∈ Document.votesFor (tipsHashToHex hash)
          (advertise peerIdOf probeFn probed) := by
        rw [votesFor_advertise]
        exact List.mem_map_of_mem (List.mem_filter.2
          ⟨hp, decide_eq_true ((hvoted _ p hp).2 rfl)⟩)
      exact (List.length_pos_of_mem (List.mem_filter.2
        ⟨List.take_subset _ _ hp, decide_eq_true hmem⟩)).ne'
    exact if_neg hnarrowed

end Quorum

/-! ## What a quorum attests -/

/-- Signatures are the signer and the data, and encryption adds a byte. -/
def plainCrypto : TipCrypto UInt8 Unit where
  base64 := unitPerByte
  keyIDLength := 1
  nonceBits := 1
  digest _ := List.replicate 32 0
  encrypt data _ _ := 0 :: data
  decrypt data _ _ := data.tail
  sign data publicKey := publicKey :: data
  verify data publicKey signature := decide (signature = publicKey :: data)
  inverts := unitPerByte_inverts
  keyIDLength_pos := Nat.one_pos
  length_digest _ := List.length_replicate
  encrypt_ne_nil _ _ _ := List.cons_ne_nil _ _
  decrypt_encrypt _ _ _ := rfl
  sign_ne_nil _ _ := by simp [unitPerByte]
  verify_sign _ _ := decide_eq_true rfl

/-- A writer that serves change `b`. -/
def servingWriter : TipResponder UInt8 Unit plainCrypto.keyIDLength where
  documentPath := JsString.ofString "/doc"
  signingEnabled := true
  users := [7]
  userPublicKey := 7
  servedFrontier := [JsString.ofString "b"]
  currentKey := some (⟨[1], rfl⟩, ())

/-- A loader that knows the writer and the key. -/
def knowingLoader : TipLoader UInt8 Unit where
  documentPath := JsString.ofString "/doc"
  signingEnabled := true
  writers := [7]
  getKey _ := some ()

/-- A request that the writer itself signed. -/
def signedRequest : CRDTLoadRequest where
  documentId := JsString.ofString "/doc"
  signature := some (unitPerByte.fromUint8Array
    (7 :: loadRequestBytes (JsString.ofString "/doc")))

theorem knowingLoader_reads :
    knowingLoader.Reads (servingWriter, (⟨[2], rfl⟩ : plainCrypto.Nonce)) where
  path := rfl
  signing := rfl
  writer := List.mem_singleton_self _
  key := ⟨_, _, rfl, rfl⟩
  size := by decide +kernel

end Collabswarm.Tips
