import Collabswarm.Acl.Replay

/-!
# The canonical payload of an entry

`canonicalEntryPayload` writes the numbers of an entry through the casts of the
language and the byte strings behind their lengths.  On entries of the right
shape no cast changes a number, so the payload determines every field but the
signature.
-/

namespace Collabswarm

open Bytes

variable {Δ : Type}

/-- `canonicalEntryPayload`; `none` where a field does not have its declared
type. -/
def RawEntry.canonicalEntryPayload (entry : RawEntry Δ)
    (serializeChange : Δ → Bytes) : Option Bytes := do
  let sequenceNumber ← entry.sequenceNumber
  let timestamp ← entry.timestamp
  let signerKeyId ← entry.signerKeyId
  let parentHash ←
    match entry.parentHash with
    | none => some none
    | some parentHash => parentHash.map some
  some (canonicalEntryPayloadFromBytes sequenceNumber.toUint32
    timestamp.high.floorUint32 timestamp.toUint32 parentHash signerKeyId
    (serializeChange entry.change))

namespace JsNumber

theorem toUint32_natCast (n : ℕ) : (finite n).toUint32 = n % 2 ^ 32 := by
  have hfloor : ⌊(n : ℚ)⌋ = n := Int.floor_natCast n
  rw [toUint32, if_pos (Nat.cast_nonneg n), hfloor]
  omega

theorem high_floorUint32_natCast (n : ℕ) :
    (finite n).high.floorUint32 = n / 2 ^ 32 % 2 ^ 32 := by
  have hfloor : ⌊(n : ℚ) / 2 ^ 32⌋ = ((n / 2 ^ 32 : ℕ) : ℤ) := by
    have h := Rat.floor_natCast_div_natCast n (2 ^ 32)
    rw [Nat.cast_pow, Nat.cast_ofNat] at h
    rw [h]
    norm_cast
  rw [high, floorUint32, hfloor]
  omega

theorem eq_natCast_of_asUnsigned {bound n : ℕ} {number : JsNumber}
    (h : number.asUnsigned bound = some n) : number = finite n := by
  cases number with
  | notFinite => cases h
  | finite q =>
      rw [asUnsigned] at h
      split at h
      · rename_i hq
        obtain ⟨hden, hnum, -⟩ := hq
        obtain rfl : q.num.toNat = n := Option.some.inj h
        have hnat : ((q.num.toNat : ℤ) : ℚ) = (q.num : ℚ) :=
          congrArg Int.cast (Int.toNat_of_nonneg hnum)
        have hcast : ((q.num.toNat : ℕ) : ℚ) = (q.num : ℚ) := by
          exact_mod_cast hnat
        rw [hcast, Rat.coe_int_num_of_den_eq_one hden]
      · cases h

end JsNumber

/-! ## What the shape check returns -/

theorem eq_of_checkUnsigned {bound : ℕ} {message : String}
    {field : Option JsNumber} {number : { n : ℕ // n ≤ bound }}
    (h : checkUnsigned bound message field = .ok number) :
    field = some (.finite number.1) := by
  rw [checkUnsigned] at h
  split at h
  · rename_i n hn
    obtain ⟨value, hvalue, hunsigned⟩ := Option.bind_eq_some_iff.1 hn
    split at h
    · cases h
      rw [hvalue, JsNumber.eq_natCast_of_asUnsigned hunsigned]
    · cases h
  · cases h

theorem eq_of_checkBytes {message : String} {field : Option Bytes}
    {bytes : Bytes} (h : checkBytes message field = .ok bytes) :
    field = some bytes := by
  cases field with
  | none => cases h
  | some other => exact congrArg some (Except.ok.inj h)

theorem eq_of_checkLength {bound : ℕ} {message : String} {bytes : Bytes}
    {checked : { b : Bytes // 0 < b.length ∧ b.length ≤ bound }}
    (h : checkLength bound message bytes = .ok checked) : bytes = checked.1 := by
  rw [checkLength] at h
  split at h
  · rw [← Except.ok.inj h]
  · cases h

/-- An entry of the right shape is the one that the shape check returns. -/
theorem eq_raw_of_validateEntryShape {raw : RawEntry Δ} {entry : ACLEntry Δ}
    (h : validateEntryShape (some raw) = .ok entry) : raw = entry.raw := by
  obtain ⟨sequenceNumber, timestamp, parentHash, change, signerKeyId,
    signature⟩ := raw
  simp only [validateEntryShape, bind, Except.bind] at h
  split at h
  · cases h
  rename_i checkedSequence hsequence
  split at h
  · cases h
  rename_i checkedTimestamp htimestamp
  split at h
  · cases h
  rename_i signerBytes hsigner
  split at h
  · cases h
  rename_i checkedSigner hsignerLength
  split at h
  · cases h
  rename_i signatureBytes hsignature
  split at h
  · cases h
  rename_i checkedSignature hsignatureLength
  obtain rfl := eq_of_checkUnsigned hsequence
  obtain rfl := eq_of_checkUnsigned htimestamp
  obtain rfl := eq_of_checkBytes hsigner
  obtain rfl := eq_of_checkLength hsignerLength
  obtain rfl := eq_of_checkBytes hsignature
  obtain rfl := eq_of_checkLength hsignatureLength
  cases parentHash with
  | none =>
      cases h
      rfl
  | some parentHash =>
      dsimp only at h
      split at h
      · cases h
      rename_i parentBytes hparent
      split at h
      · cases h
      rename_i checkedParent hparentLength
      obtain rfl := eq_of_checkBytes hparent
      obtain rfl := eq_of_checkLength hparentLength
      cases h
      rfl
/-! ## Injectivity -/

/-- No cast changes a number of an entry of the right shape. -/
theorem canonicalEntryPayload_raw (entry : ACLEntry Δ)
    (serializeChange : Δ → Bytes) :
    entry.raw.canonicalEntryPayload serializeChange =
      some (entry.payloadFromBytes (serializeChange entry.change)) := by
  have hsequence : (JsNumber.finite entry.sequenceNumber).toUint32 =
      entry.sequenceNumber := by
    have hle := entry.sequenceNumber_le
    rw [JsNumber.toUint32_natCast]
    omega
  have hhigh : (JsNumber.finite entry.timestamp).high.floorUint32 =
      entry.timestamp / 2 ^ 32 := by
    have hle : entry.timestamp ≤ 2 ^ 53 - 1 := entry.timestamp_le
    rw [JsNumber.high_floorUint32_natCast]
    omega
  have hlow : bigEndian 4 (JsNumber.finite entry.timestamp).toUint32 =
      bigEndian 4 entry.timestamp := by
    rw [JsNumber.toUint32_natCast]
    exact bigEndian_mod 4 entry.timestamp
  cases hparent : entry.parentHash with
  | none =>
      simp [RawEntry.canonicalEntryPayload, ACLEntry.raw,
        ACLEntry.payloadFromBytes, canonicalEntryPayloadFromBytes, hparent,
        hsequence, hhigh, hlow]
  | some parentHash =>
      simp [RawEntry.canonicalEntryPayload, ACLEntry.raw,
        ACLEntry.payloadFromBytes, canonicalEntryPayloadFromBytes, hparent,
        hsequence, hhigh, hlow]

/-- Two entries of the right shape with the same payload agree in everything
that is signed, under any serialisers of changes. -/
theorem canonicalEntryPayload_injective {raw raw' : RawEntry Δ}
    {entry entry' : ACLEntry Δ} {serializeChange serializeChange' : Δ → Bytes}
    {payload : Bytes} (hshape : validateEntryShape (some raw) = .ok entry)
    (hshape' : validateEntryShape (some raw') = .ok entry')
    (hchange : (serializeChange raw.change).length < 2 ^ 32)
    (hchange' : (serializeChange' raw'.change).length < 2 ^ 32)
    (hpayload : raw.canonicalEntryPayload serializeChange = some payload)
    (hpayload' : raw'.canonicalEntryPayload serializeChange' = some payload) :
    raw.sequenceNumber = raw'.sequenceNumber ∧
      raw.timestamp = raw'.timestamp ∧ raw.parentHash = raw'.parentHash ∧
      raw.signerKeyId = raw'.signerKeyId ∧
      serializeChange raw.change = serializeChange' raw'.change := by
  obtain rfl := eq_raw_of_validateEntryShape hshape
  obtain rfl := eq_raw_of_validateEntryShape hshape'
  rw [canonicalEntryPayload_raw] at hpayload hpayload'
  obtain ⟨hsequence, htimestamp, hparent, hsigner, hbytes⟩ :=
    ACLChainConfig.payloadFromBytes_inj hchange hchange'
      (Option.some.inj (hpayload.trans hpayload'.symm))
  simp only [ACLEntry.raw]
  rw [hsequence, htimestamp, hparent, hsigner]
  exact ⟨rfl, rfl, rfl, rfl, hbytes⟩

/-- The entry with number 0 that has the largest timestamp; the change is its
own serialisation. -/
private theorem latestEntry_parentHash :
    ∀ h ∈ (none : Option Bytes), 0 < h.length ∧ h.length ≤ maxParentHashBytes := by
  simp

private def latestEntry : ACLEntry Bytes where
  sequenceNumber := 0
  timestamp := maxSafeInteger
  parentHash := none
  change := [3]
  signerKeyId := [1]
  signature := [2]
  sequenceNumber_le := by decide
  timestamp_le := le_refl _
  parentHash_length := latestEntry_parentHash
  signerKeyId_length := by decide
  signature_length := by decide

theorem canonicalEntryPayload_injective_latest :
    latestEntry.raw.signerKeyId = (⟨some (.finite 0),
      some (.finite maxSafeInteger), none, [3], some [1], some [4, 5]⟩ :
        RawEntry Bytes).signerKeyId :=
  (@canonicalEntryPayload_injective Bytes _ _ _ _ id id
    (latestEntry.payloadFromBytes [3]) (validateEntryShape_raw latestEntry)
    (validateEntryShape_raw { latestEntry with
      signature := [4, 5]
      signature_length := by decide })
    (by decide) (by decide) (canonicalEntryPayload_raw latestEntry id)
    (canonicalEntryPayload_raw _ id)).2.2.2.1

end Collabswarm
