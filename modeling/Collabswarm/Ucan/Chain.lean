import Collabswarm.Ucan.Capabilities
import Collabswarm.Support.Json
import Collabswarm.Support.Lists

/-!
# Delegation chains

`validateUCANChain` walks from a token through the tokens that prove it to
tokens without proofs.  The walk is bounded in depth, and one set of
fingerprints, shared between the branches, makes it fail where a token occurs
twice.  A token that is accepted delegates, along every chain, only what the
root granted.

The signature scheme, the resolver of keys and the built-in text functions are
parameters.  Times are compared only.
-/

namespace Collabswarm.Ucan

open JsString

/-! ## Tokens -/

/-- A capability granted by a token. -/
structure UCANCapability where
  resource : JsString
  ability : JsString
  deriving DecidableEq

/-- A token. -/
structure UCAN (Time : Type) where
  version : JsString
  issuer : JsString
  audience : JsString
  capabilities : List UCANCapability
  expiration : Option Time
  notBefore : Option Time
  nonce : JsString
  proofs : List JsString
  signature : JsString
  deriving DecidableEq

/-- The value of a field of a token in its text. -/
inductive FieldValue (Time : Type) where
  | string (s : JsString)
  | capabilities (cs : List UCANCapability)
  | time (t : Option Time)
  | strings (ss : List JsString)

/-- The built-in text functions: `JSON.stringify` of an ordered record and
`JSON.parse`, the latter at the type of tokens, and `btoa` and `atob` on byte
strings. -/
structure TextFunctions (Time : Type) where
  stringify : List (JsString × FieldValue Time) → JsString
  parse : JsString → Except JsString (UCAN Time)
  uint8ArrayToBase64 : Bytes → JsString
  base64ToUint8Array : JsString → Except JsString Bytes

section Format

variable {Time : Type}

/-- The fields of the payload in the order of `canonicalPayloadString`. -/
def UCAN.orderedPayload (u : UCAN Time) : List (JsString × FieldValue Time) :=
  [(ofString "version", .string u.version),
    (ofString "audience", .string u.audience),
    (ofString "capabilities", .capabilities u.capabilities),
    (ofString "expiration", .time u.expiration),
    (ofString "issuer", .string u.issuer),
    (ofString "nonce", .string u.nonce),
    (ofString "notBefore", .time u.notBefore),
    (ofString "proofs", .strings u.proofs)]

/-- `canonicalPayloadString`. -/
def canonicalPayloadString (text : TextFunctions Time) (u : UCAN Time) :
    JsString :=
  text.stringify u.orderedPayload

/-- `deterministicStringify`. -/
def deterministicStringify (text : TextFunctions Time) (u : UCAN Time) :
    JsString :=
  text.stringify
    (u.orderedPayload ++ [(ofString "signature", .string u.signature)])

/-- `serializeUCAN`. -/
def serializeUCAN (text : TextFunctions Time) (u : UCAN Time) : JsString :=
  text.uint8ArrayToBase64 (textEncode (deterministicStringify text u))

/-- `deserializeUCAN`. -/
def deserializeUCAN (text : TextFunctions Time) (encoded : JsString) :
    Except JsString (UCAN Time) := do
  let bytes ← text.base64ToUint8Array encoded
  text.parse (ofChars (textDecode bytes))

end Format

/-! ## Validation -/

/-- The keys: how an issuer resolves to one, its raw bytes, and the opaque
verification of a signature over a payload. -/
structure KeyFunctions (Key : Type) where
  resolvePublicKey : JsString → Except JsString Key
  exportRaw : Key → Bytes
  verify : Key → Bytes → Bytes → Bool

/-- What a validation returns. -/
inductive Verdict where
  | valid
  | invalid (error : JsString)
  deriving DecidableEq

section Validation

variable {Time Key : Type} [LT Time] [DecidableLT Time]

/-- What a validation depends on besides the token: the text functions, the
keys, the root key and the clock. -/
structure Setting (Time Key : Type) where
  text : TextFunctions Time
  keys : KeyFunctions Key
  rootPublicKey : Key
  now : Time

/-- `verifyUCANSignature`. -/
def verifyUCANSignature (S : Setting Time Key) (u : UCAN Time)
    (issuerPublicKey : Key) : Except JsString Bool := do
  let signatureBytes ← S.text.base64ToUint8Array u.signature
  return S.keys.verify issuerPublicKey signatureBytes
    (textEncode (canonicalPayloadString S.text u))

/-- The token grants a capability that covers `cap`. -/
def UCAN.covers (proof : UCAN Time) (cap : UCANCapability) : Bool :=
  proof.capabilities.any fun proofCap =>
    decide (proofCap.resource = cap.resource) &&
      capabilityImplies proofCap.ability cap.ability

/-- The message about a capability that a proof does not grant. -/
def notAuthorized (cap : UCANCapability) : JsString :=
  ofString "Capability " ++ cap.ability ++ ofString " on " ++ cap.resource ++
    ofString " not authorized by proof"

/-- The loop over the proofs of a token: each is read, checked against the
token and validated by `validate`, which passes the fingerprints on. -/
def validateProofs (S : Setting Time Key)
    (validate : UCAN Time → List JsString →
      Except JsString (Verdict × List JsString))
    (u : UCAN Time) : List JsString → List JsString →
      Except JsString (Verdict × List JsString)
  | [], visited => .ok (.valid, visited)
  | proofStr :: proofs, visited => do
      let proof ← deserializeUCAN S.text proofStr
      if proof.audience ≠ u.issuer then
        return (.invalid (ofString "Proof audience does not match UCAN issuer"),
          visited)
      match u.capabilities.find? (!proof.covers ·) with
      | some cap => return (.invalid (notAuthorized cap), visited)
      | none =>
          match ← validate proof visited with
          | (.valid, visited) => validateProofs S validate u proofs visited
          | (.invalid error, visited) => return (.invalid error, visited)

/-- A token without proofs must be issued by the root key. -/
def validateRoot (S : Setting Time Key) (issuerKey : Key) : Verdict :=
  if S.keys.exportRaw S.rootPublicKey ≠ S.keys.exportRaw issuerKey then
    .invalid (ofString "Root UCAN must be issued by document creator")
  else .valid

/-- `validateUCANChain` with the depth and the fingerprints as arguments. -/
def validateWithin (S : Setting Time Key) : ℕ → UCAN Time → List JsString →
    Except JsString (Verdict × List JsString)
  | 0, _, visited =>
      .ok (.invalid (ofString "UCAN chain exceeds maximum depth"), visited)
  | maxDepth + 1, u, visited => do
      let fingerprint := serializeUCAN S.text u
      if fingerprint ∈ visited then
        return (.invalid
          (ofString "Circular delegation detected in UCAN chain"), visited)
      let visited := fingerprint :: visited
      if u.expiration.any (fun expiration => expiration < S.now) then
        return (.invalid (ofString "UCAN has expired"), visited)
      if u.notBefore.any (fun notBefore => S.now < notBefore) then
        return (.invalid (ofString "UCAN is not yet valid"), visited)
      let issuerKey ← S.keys.resolvePublicKey u.issuer
      if !(← verifyUCANSignature S u issuerKey) then
        return (.invalid (ofString "Invalid UCAN signature"), visited)
      if u.proofs = [] then return (validateRoot S issuerKey, visited)
      validateProofs S (validateWithin S maxDepth) u u.proofs visited

/-- `validateUCANChain`. -/
def validateUCANChain (S : Setting Time Key) (u : UCAN Time) :
    Except JsString Verdict := do
  return (← validateWithin S 10 u []).1

end Validation

/-! ## Soundness -/

section Soundness

variable {Time Key : Type} [LT Time] [DecidableLT Time]
  {S : Setting Time Key}

/-- The signature verifies under the key to which the issuer resolves. -/
def Signed (S : Setting Time Key) (u : UCAN Time) : Prop :=
  ∃ issuerKey, S.keys.resolvePublicKey u.issuer = .ok issuerKey ∧
    verifyUCANSignature S u issuerKey = .ok true

/-- The token is neither expired nor not yet valid. -/
def Timely (S : Setting Time Key) (u : UCAN Time) : Prop :=
  (∀ t, u.expiration = some t → ¬ t < S.now) ∧
    ∀ t, u.notBefore = some t → ¬ S.now < t

/-- The issuer resolves to the root key. -/
def RootIssued (S : Setting Time Key) (u : UCAN Time) : Prop :=
  ∃ issuerKey, S.keys.resolvePublicKey u.issuer = .ok issuerKey ∧
    S.keys.exportRaw issuerKey = S.keys.exportRaw S.rootPublicKey

/-- The proof grants every capability of the token. -/
def Narrows (u proof : UCAN Time) : Prop :=
  ∀ cap ∈ u.capabilities, ∃ proofCap ∈ proof.capabilities,
    proofCap.resource = cap.resource ∧
      capabilityImplies proofCap.ability cap.ability = true

omit [LT Time] [DecidableLT Time] in
theorem narrows_refl (u : UCAN Time) : Narrows u u :=
  fun cap hcap => ⟨cap, hcap, rfl, capabilityImplies_refl cap.ability⟩

omit [LT Time] [DecidableLT Time] in
theorem Narrows.trans {u v w : UCAN Time} (huv : Narrows u v)
    (hvw : Narrows v w) : Narrows u w := by
  intro cap hcap
  obtain ⟨cap', hcap', hresource, himplies⟩ := huv cap hcap
  obtain ⟨cap'', hcap'', hresource', himplies'⟩ := hvw cap' hcap'
  exact ⟨cap'', hcap'', hresource'.trans hresource,
    capabilityImplies_trans himplies' himplies⟩

omit [LT Time] [DecidableLT Time] in
theorem narrows_of_find? {u proof : UCAN Time}
    (h : u.capabilities.find? (!proof.covers ·) = none) :
    Narrows u proof := by
  intro cap hcap
  have hcovers := List.find?_eq_none.1 h cap hcap
  simpa [UCAN.covers] using hcovers

/-- The walk accepts the token with this depth. -/
def AcceptedWithin (S : Setting Time Key) (depth : ℕ) (u : UCAN Time) : Prop :=
  ∃ visited visited', validateWithin S depth u visited = .ok (.valid, visited')

omit [LT Time] [DecidableLT Time] in
/-- What the loop checks of every proof. -/
theorem validateProofs_valid
    {validate : UCAN Time → List JsString →
      Except JsString (Verdict × List JsString)}
    {u : UCAN Time} {proofs visited visited' : List JsString}
    (h : validateProofs S validate u proofs visited = .ok (.valid, visited')) :
    ∀ proofStr ∈ proofs, ∃ proof,
      deserializeUCAN S.text proofStr = .ok proof ∧
      proof.audience = u.issuer ∧ Narrows u proof ∧
      ∃ before after, validate proof before = .ok (.valid, after) := by
  induction proofs generalizing visited with
  | nil => simp
  | cons proofStr proofs ih =>
      rw [validateProofs] at h
      obtain ⟨proof, hproof, h⟩ := exists_ok_of_bind h
      split at h
      · cases h
      rename_i haudience
      split at h
      · cases h
      rename_i hcovers
      obtain ⟨⟨verdict, after⟩, hvalidate, h⟩ := exists_ok_of_bind h
      rcases verdict with _ | error
      · intro proofStr' hmem
        rcases List.mem_cons.1 hmem with rfl | hmem
        · exact ⟨proof, hproof, not_not.1 haudience,
            narrows_of_find? hcovers, visited, after, hvalidate⟩
        · exact ih h proofStr' hmem
      · cases h

/-- What is known of a token that is accepted: it is signed and timely, and it
is issued by the root key or all of its proofs are accepted. -/
theorem acceptedWithin_cases {depth : ℕ} {u : UCAN Time}
    (h : AcceptedWithin S (depth + 1) u) :
    Signed S u ∧ Timely S u ∧ (u.proofs = [] → RootIssued S u) ∧
      ∀ proofStr ∈ u.proofs, ∃ proof,
        deserializeUCAN S.text proofStr = .ok proof ∧
        proof.audience = u.issuer ∧ Narrows u proof ∧
        AcceptedWithin S depth proof := by
  obtain ⟨visited, visited', h⟩ := h
  rw [validateWithin] at h
  dsimp only at h
  split at h
  · cases h
  split at h
  · cases h
  rename_i hexpiration
  split at h
  · cases h
  rename_i hnotBefore
  obtain ⟨issuerKey, hissuer, h⟩ := exists_ok_of_bind h
  obtain ⟨verified, hverified, h⟩ := exists_ok_of_bind h
  split at h
  · cases h
  rename_i hsigned
  have hverified' : verified = true := by simpa using hsigned
  subst hverified'
  have htimely : Timely S u := by
    refine ⟨fun t ht hlt => hexpiration ?_, fun t ht hlt => hnotBefore ?_⟩
    · simpa [ht] using hlt
    · simpa [ht] using hlt
  refine ⟨⟨issuerKey, hissuer, hverified⟩, htimely, ?_, ?_⟩
  · intro hproofs
    rw [if_pos hproofs, validateRoot] at h
    split at h
    · cases h
    · rename_i hroot
      exact ⟨issuerKey, hissuer, (not_not.1 hroot).symm⟩
  · intro proofStr hmem
    rw [if_neg (List.ne_nil_of_mem hmem)] at h
    exact validateProofs_valid h proofStr hmem

/-- A chain of tokens towards the root: each one is a proof of the one before,
and the last one has no proofs. -/
inductive RootChain (S : Setting Time Key) : UCAN Time → List (UCAN Time) → Prop
  | root {u : UCAN Time} (h : u.proofs = []) : RootChain S u [u]
  | proof {u proof : UCAN Time} {proofStr : JsString} {chain : List (UCAN Time)}
      (hmem : proofStr ∈ u.proofs)
      (hproof : deserializeUCAN S.text proofStr = .ok proof)
      (h : RootChain S proof chain) : RootChain S u (u :: chain)

/-- What holds along a chain from `u`. -/
structure SoundChain (S : Setting Time Key) (u : UCAN Time)
    (chain : List (UCAN Time)) : Prop where
  signed : ∀ t ∈ chain, Signed S t
  timely : ∀ t ∈ chain, Timely S t
  linked : chain.IsChain fun t proof => proof.audience = t.issuer
  rooted : ∃ root, chain.getLast? = some root ∧ RootIssued S root ∧
    Narrows u root

omit [LT Time] [DecidableLT Time] in
theorem RootChain.head {u : UCAN Time} {chain : List (UCAN Time)}
    (h : RootChain S u chain) : ∃ rest, chain = u :: rest := by
  cases h with
  | root _ => exact ⟨[], rfl⟩
  | proof _ _ _ => exact ⟨_, rfl⟩

/-- Every chain of a token that is accepted is sound and within the depth. -/
theorem AcceptedWithin.sound {depth : ℕ} {u : UCAN Time}
    (h : AcceptedWithin S depth u) {chain : List (UCAN Time)}
    (hchain : RootChain S u chain) :
    SoundChain S u chain ∧ chain.length ≤ depth := by
  induction hchain generalizing depth with
  | @root u hproofs =>
      obtain _ | depth := depth
      · obtain ⟨visited, visited', h⟩ := h
        cases h
      obtain ⟨hsigned, htimely, hroot, -⟩ := acceptedWithin_cases h
      refine ⟨⟨by simpa using hsigned, by simpa using htimely,
        List.isChain_singleton u, u, rfl, hroot hproofs, narrows_refl u⟩, ?_⟩
      exact Nat.succ_le_succ depth.zero_le
  | @proof u proof proofStr chain hmem hproof hrest ih =>
      obtain _ | depth := depth
      · obtain ⟨visited, visited', h⟩ := h
        cases h
      obtain ⟨hsigned, htimely, -, hproofs⟩ := acceptedWithin_cases h
      obtain ⟨proof', hproof', haudience, hnarrows, haccepted⟩ :=
        hproofs proofStr hmem
      rw [hproof] at hproof'
      cases hproof'
      obtain ⟨hsound, hlength⟩ := ih haccepted
      obtain ⟨rest, rfl⟩ := hrest.head
      obtain ⟨root, hlast, hroot, hnarrows'⟩ := hsound.rooted
      refine ⟨⟨?_, ?_, ?_, root, ?_, hroot, hnarrows.trans hnarrows'⟩, ?_⟩
      · exact List.forall_mem_cons.2 ⟨hsigned, hsound.signed⟩
      · exact List.forall_mem_cons.2 ⟨htimely, hsound.timely⟩
      · exact List.isChain_cons_cons.2 ⟨haudience, hsound.linked⟩
      · rw [List.getLast?_cons_cons]
        exact hlast
      · rw [List.length_cons]
        exact Nat.succ_le_succ hlength

/-- A token that is accepted delegates, along every chain to a token without
proofs, only what the root granted. -/
theorem validateUCANChain_sound (S : Setting Time Key) (u : UCAN Time)
    (h : validateUCANChain S u = .ok .valid) (chain : List (UCAN Time))
    (hchain : RootChain S u chain) :
    SoundChain S u chain ∧ chain.length - 1 ≤ 9 := by
  obtain ⟨⟨verdict, visited'⟩, hwithin, hverdict⟩ := exists_ok_of_bind h
  cases hverdict
  have haccepted : AcceptedWithin S 10 u := ⟨[], visited', hwithin⟩
  obtain ⟨hsound, hlength⟩ := haccepted.sound hchain
  exact ⟨hsound, by omega⟩

end Soundness

/-! ## Tokens with natural times

The text functions for tokens whose times are natural numbers: JSON and padded
Base64. -/

section NaturalTimes

/-- A digit of Base64. -/
def base64Digit (n : ℕ) : Char :=
  Char.ofNat (if n < 26 then n + 65 else if n < 52 then n + 71
    else if n < 62 then n - 4 else if n = 62 then 43 else 47)

/-- The value of a digit of Base64. -/
def base64Value (c : Char) : Option ℕ :=
  let n := c.toNat
  if 65 ≤ n ∧ n ≤ 90 then some (n - 65)
  else if 97 ≤ n ∧ n ≤ 122 then some (n - 71)
  else if 48 ≤ n ∧ n ≤ 57 then some (n + 4)
  else if n = 43 then some 62
  else if n = 47 then some 63
  else none

/-- The padded Base64 of a byte string. -/
def encodeBase64 : Bytes → List Char
  | [] => []
  | [a] =>
      [base64Digit (a.toNat / 4), base64Digit (a.toNat % 4 * 16), '=', '=']
  | [a, b] =>
      [base64Digit (a.toNat / 4),
        base64Digit (a.toNat % 4 * 16 + b.toNat / 16),
        base64Digit (b.toNat % 16 * 4), '=']
  | a :: b :: c :: rest =>
      base64Digit (a.toNat / 4) ::
        base64Digit (a.toNat % 4 * 16 + b.toNat / 16) ::
        base64Digit (b.toNat % 16 * 4 + c.toNat / 64) ::
        base64Digit (c.toNat % 64) :: encodeBase64 rest

/-- The byte string of a padded Base64 text. -/
def decodeBase64 : List Char → Option Bytes
  | [] => some []
  | a :: b :: c :: d :: rest => do
      let a ← base64Value a
      let b ← base64Value b
      if c = '=' then return [UInt8.ofNat (a * 4 + b / 16)]
      let c ← base64Value c
      if d = '=' then
        return [UInt8.ofNat (a * 4 + b / 16), UInt8.ofNat (b * 16 + c / 4)]
      let d ← base64Value d
      return UInt8.ofNat (a * 4 + b / 16) :: UInt8.ofNat (b * 16 + c / 4) ::
        UInt8.ofNat (c * 64 + d) :: (← decodeBase64 rest)
  | _ => none

/-- The JSON value of a field. -/
def FieldValue.toJson : FieldValue ℕ → Json
  | .string s => .str s
  | .capabilities cs => .arr (cs.map fun c =>
      .obj [(ofString "resource", .str c.resource),
        (ofString "ability", .str c.ability)])
  | .time none => .null
  | .time (some t) => .num t
  | .strings ss => .arr (ss.map .str)

/-- Read a string. -/
def readString : Option Json → Option JsString
  | some (.str s) => some s
  | _ => none

/-- Read a time that may be `null`. -/
def readTime : Option Json → Option (Option ℕ)
  | some .null => some none
  | some (.num t) => some (some t)
  | _ => none

/-- Read a capability. -/
def readCapability : Json → Option UCANCapability
  | .obj members => do
      return ⟨← readString (members.lookup (ofString "resource")),
        ← readString (members.lookup (ofString "ability"))⟩
  | _ => none

/-- Read the elements of an array. -/
def readElements {α : Type} (read : Json → Option α) :
    Option Json → Option (List α)
  | some (.arr elements) => elements.mapM read
  | _ => none

/-- Read a token. -/
def readToken : Json → Option (UCAN ℕ)
  | .obj members => do
      let field := fun name => members.lookup (ofString name)
      return {
        version := ← readString (field "version")
        issuer := ← readString (field "issuer")
        audience := ← readString (field "audience")
        capabilities := ← readElements readCapability (field "capabilities")
        expiration := ← readTime (field "expiration")
        notBefore := ← readTime (field "notBefore")
        nonce := ← readString (field "nonce")
        proofs := ← readElements (readString ∘ some) (field "proofs")
        signature := ← readString (field "signature") }
  | _ => none

/-- The text functions. -/
def jsonText : TextFunctions ℕ where
  stringify fields :=
    ofChars (Json.stringify (.obj (fields.map fun f => (f.1, f.2.toJson))))
  parse s :=
    match (Json.parse (scalars s)).bind readToken with
    | some u => .ok u
    | none => .error (ofString "SyntaxError")
  uint8ArrayToBase64 bytes := ofChars (encodeBase64 bytes)
  base64ToUint8Array s :=
    match decodeBase64 (scalars s) with
    | some bytes => .ok bytes
    | none => .error (ofString "InvalidCharacterError")

/-- Keys are the names of their holders, and a signature is the name of the
signer. -/
def namedKeys : KeyFunctions Bytes where
  resolvePublicKey issuer := .ok (textEncode issuer)
  exportRaw := id
  verify key signature _ := decide (signature = key)

/-- The creator of a document and a clock. -/
def creatorSetting : Setting ℕ Bytes where
  text := jsonText
  keys := namedKeys
  rootPublicKey := textEncode (ofString "creator")
  now := 1000

/-- The creator grants `/doc/admin` to a delegate. -/
def rootToken : UCAN ℕ where
  version := ofString "0.1.0"
  issuer := ofString "creator"
  audience := ofString "delegate"
  capabilities := [⟨ofString "doc-1", capDocAdmin⟩]
  expiration := some 2000
  notBefore := none
  nonce := ofString "00"
  proofs := []
  signature := ofChars (encodeBase64 (textEncode (ofString "creator")))

/-- The delegate grants `/doc/write` to a user. -/
def delegatedToken : UCAN ℕ where
  version := ofString "0.1.0"
  issuer := ofString "delegate"
  audience := ofString "user"
  capabilities := [⟨ofString "doc-1", capDocWrite⟩]
  expiration := none
  notBefore := some 500
  nonce := ofString "01"
  proofs := [serializeUCAN jsonText rootToken]
  signature := ofChars (encodeBase64 (textEncode (ofString "delegate")))

/-- The delegation is accepted, and it leads back to the creator. -/
theorem validateUCANChain_delegated :
    SoundChain creatorSetting delegatedToken [delegatedToken, rootToken] ∧
      [delegatedToken, rootToken].length - 1 ≤ 9 := by
  have hproof : deserializeUCAN creatorSetting.text
      (serializeUCAN jsonText rootToken) = .ok rootToken ∧
      validateUCANChain creatorSetting delegatedToken = .ok .valid := by
    decide +kernel
  exact validateUCANChain_sound creatorSetting delegatedToken hproof.2 _
    (.proof (List.mem_singleton.2 rfl) hproof.1 (.root rfl))

end NaturalTimes

end Collabswarm.Ucan
