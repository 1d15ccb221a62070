import Collabswarm.Ucan.Chain

/-!
# Tokens survive their text

A token is passed on as Base64 of the UTF-8 of its JSON.  Reading that text
gives the token back, whatever its strings are, so different tokens have
different texts.
-/

namespace Collabswarm.Ucan

open JsString

/-! ## Base64 -/

theorem base64Value_base64Digit {n : ℕ} (h : n < 64) :
    base64Value (base64Digit n) = some n := by
  revert h n
  decide

theorem base64Digit_ne {n : ℕ} (h : n < 64) : base64Digit n ≠ '=' := by
  revert h n
  decide

/-- A byte string is read back from its Base64. -/
theorem decodeBase64_encodeBase64 (bytes : Bytes) :
    decodeBase64 (encodeBase64 bytes) = some bytes := by
  induction bytes using encodeBase64.induct with
  | case1 => rfl
  | case2 a =>
      have ha := a.toNat_lt
      rw [encodeBase64, decodeBase64, base64Value_base64Digit (by omega),
        base64Value_base64Digit (by omega)]
      have hbyte : UInt8.ofNat
          (a.toNat / 4 * 4 + a.toNat % 4 * 16 / 16) = a := by
        rw [← UInt8.toNat_inj, UInt8.toNat_ofNat']
        omega
      simp only [bind, Option.bind, if_true, pure, hbyte]
  | case3 a b =>
      have ha := a.toNat_lt
      have hb := b.toNat_lt
      rw [encodeBase64, decodeBase64, base64Value_base64Digit (by omega),
        base64Value_base64Digit (by omega), base64Value_base64Digit (by omega)]
      have hfirst : UInt8.ofNat (a.toNat / 4 * 4 +
          (a.toNat % 4 * 16 + b.toNat / 16) / 16) = a := by
        rw [← UInt8.toNat_inj, UInt8.toNat_ofNat']
        omega
      have hsecond : UInt8.ofNat ((a.toNat % 4 * 16 + b.toNat / 16) * 16 +
          b.toNat % 16 * 4 / 4) = b := by
        rw [← UInt8.toNat_inj, UInt8.toNat_ofNat']
        omega
      have hne : base64Digit (b.toNat % 16 * 4) ≠ '=' :=
        base64Digit_ne (by omega)
      simp only [bind, Option.bind, if_neg hne, if_true, pure, hfirst,
        hsecond]
  | case4 a b c rest ih =>
      have ha := a.toNat_lt
      have hb := b.toNat_lt
      have hc := c.toNat_lt
      rw [encodeBase64, decodeBase64, base64Value_base64Digit (by omega),
        base64Value_base64Digit (by omega), base64Value_base64Digit (by omega),
        base64Value_base64Digit (by omega), ih]
      have hfirst : UInt8.ofNat (a.toNat / 4 * 4 +
          (a.toNat % 4 * 16 + b.toNat / 16) / 16) = a := by
        rw [← UInt8.toNat_inj, UInt8.toNat_ofNat']
        omega
      have hsecond : UInt8.ofNat ((a.toNat % 4 * 16 + b.toNat / 16) * 16 +
          (b.toNat % 16 * 4 + c.toNat / 64) / 4) = b := by
        rw [← UInt8.toNat_inj, UInt8.toNat_ofNat']
        omega
      have hthird : UInt8.ofNat ((b.toNat % 16 * 4 + c.toNat / 64) * 64 +
          c.toNat % 64) = c := by
        rw [← UInt8.toNat_inj, UInt8.toNat_ofNat']
        omega
      have hne : base64Digit (b.toNat % 16 * 4 + c.toNat / 64) ≠ '=' :=
        base64Digit_ne (by omega)
      have hne' : base64Digit (c.toNat % 64) ≠ '=' :=
        base64Digit_ne (by omega)
      simp only [bind, Option.bind, if_neg hne, if_neg hne', pure, hfirst,
        hsecond, hthird]

/-! ## JSON -/

/-- The JSON value of a token. -/
def UCAN.toJson (u : UCAN ℕ) : Json :=
  .obj ((u.orderedPayload ++
    [(ofString "signature", FieldValue.string u.signature)]).map
      fun f : JsString × FieldValue ℕ => (f.1, f.2.toJson))

/-- The JSON value of a capability. -/
def UCANCapability.toJson (c : UCANCapability) : Json :=
  .obj [(ofString "resource", .str c.resource),
    (ofString "ability", .str c.ability)]

theorem distinctElements_iff {xs : List Json} :
    Json.DistinctElements xs ↔ ∀ x ∈ xs, x.Distinct := by
  induction xs with
  | nil => simp [Json.DistinctElements]
  | cons x xs ih => simp [Json.DistinctElements, ih]

theorem distinct_capability (c : UCANCapability) : c.toJson.Distinct := by
  refine ⟨?_, trivial, trivial, trivial⟩
  change ([ofString "resource", ofString "ability"] : List JsString).Nodup
  decide

/-- No object in the value of a field repeats a name. -/
theorem distinct_fieldValue (v : FieldValue ℕ) : v.toJson.Distinct := by
  rcases v with s | cs | _ | ss
  · trivial
  · refine distinctElements_iff.2 fun x hx => ?_
    obtain ⟨c, -, rfl⟩ := List.mem_map.1 hx
    exact distinct_capability c
  · cases ‹Option ℕ› <;> trivial
  · refine distinctElements_iff.2 fun x hx => ?_
    obtain ⟨s, -, rfl⟩ := List.mem_map.1 hx
    trivial

theorem distinct_toJson (u : UCAN ℕ) : u.toJson.Distinct := by
  refine ⟨?_, Json.distinctMembers_iff.2 ?_⟩
  · rw [List.map_map]
    have hnames : (List.map (Prod.fst ∘
        fun f : JsString × FieldValue ℕ => (f.1, f.2.toJson))
        (u.orderedPayload ++ [(ofString "signature", .string u.signature)])) =
        ["version", "audience", "capabilities", "expiration", "issuer",
          "nonce", "notBefore", "proofs", "signature"].map ofString := rfl
    rw [hnames]
    decide
  · intro m hm
    obtain ⟨f, -, rfl⟩ := List.mem_map.1 hm
    exact distinct_fieldValue f.2

/-- Strings are read back one by one. -/
theorem mapM_readString (ss : List JsString) :
    (ss.map Json.str).mapM (readString ∘ some) = some ss := by
  induction ss with
  | nil => rfl
  | cons s ss ih =>
      rw [List.map_cons, List.mapM_cons, ih]
      rfl

theorem readCapability_toJson (c : UCANCapability) :
    readCapability c.toJson = some c := by
  rfl

/-- Capabilities are read back one by one. -/
theorem mapM_readCapability (cs : List UCANCapability) :
    (cs.map UCANCapability.toJson).mapM readCapability = some cs := by
  induction cs with
  | nil => rfl
  | cons c cs ih =>
      rw [List.map_cons, List.mapM_cons, ih, readCapability_toJson]
      rfl

theorem readTime_toJson (t : Option ℕ) :
    readTime (some (FieldValue.time t).toJson) = some t := by
  cases t <;> rfl

/-- A token is read back from its JSON value. -/
theorem readToken_toJson (u : UCAN ℕ) : readToken u.toJson = some u := by
  have hread : readToken u.toJson = (do
      let capabilities ←
        (u.capabilities.map UCANCapability.toJson).mapM readCapability
      let expiration ← readTime (some (FieldValue.time u.expiration).toJson)
      let notBefore ← readTime (some (FieldValue.time u.notBefore).toJson)
      let proofs ← (u.proofs.map Json.str).mapM (readString ∘ some)
      return { u with
        capabilities := capabilities
        expiration := expiration
        notBefore := notBefore
        proofs := proofs }) := rfl
  rw [hread, mapM_readCapability, mapM_readString, readTime_toJson,
    readTime_toJson]
  rfl

/-! ## The text of a token -/

theorem head?_stringify_toJson (u : UCAN ℕ) :
    (Json.stringify u.toJson).head? = some '{' := by
  rfl

theorem uint8ArrayToBase64_eq (bytes : Bytes) :
    jsonText.uint8ArrayToBase64 bytes = ofChars (encodeBase64 bytes) :=
  rfl

theorem base64ToUint8Array_ofChars {cs : List Char} {bytes : Bytes}
    (h : decodeBase64 cs = some bytes) :
    jsonText.base64ToUint8Array (ofChars cs) = .ok bytes := by
  simp only [jsonText, scalars_ofChars, h]

theorem parse_ofChars {cs : List Char} {u : UCAN ℕ}
    (h : (Json.parse cs).bind readToken = some u) :
    jsonText.parse (ofChars cs) = .ok u := by
  simp only [jsonText, scalars_ofChars, h]

theorem textEncode_deterministicStringify (u : UCAN ℕ) :
    textEncode (deterministicStringify jsonText u) =
      utf8 (Json.stringify u.toJson) := by
  have hstringify : deterministicStringify jsonText u =
      ofChars (Json.stringify u.toJson) := rfl
  rw [hstringify, textEncode, scalars_ofChars]

/-- A token is read back from its text. -/
theorem deserializeUCAN_serializeUCAN (u : UCAN ℕ) :
    deserializeUCAN jsonText (serializeUCAN jsonText u) = .ok u := by
  have hbytes : jsonText.base64ToUint8Array (serializeUCAN jsonText u) =
      .ok (utf8 (Json.stringify u.toJson)) := by
    rw [serializeUCAN, textEncode_deterministicStringify,
      uint8ArrayToBase64_eq]
    exact base64ToUint8Array_ofChars (decodeBase64_encodeBase64 _)
  have hmark : (Json.stringify u.toJson).head? ≠ some '\uFEFF' := by
    rw [head?_stringify_toJson]
    decide
  have hparse : jsonText.parse (ofChars
      (textDecode (utf8 (Json.stringify u.toJson)))) = .ok u := by
    rw [textDecode_utf8 hmark]
    apply parse_ofChars
    rw [Json.parse_stringify (distinct_toJson u), Option.bind_some,
      readToken_toJson]
  rw [deserializeUCAN, hbytes]
  simp only [bind, Except.bind, hparse]

/-- Different tokens have different texts. -/
theorem serializeUCAN_injective :
    Function.Injective (serializeUCAN jsonText) := by
  intro u v h
  have hread := deserializeUCAN_serializeUCAN u
  rw [h, deserializeUCAN_serializeUCAN v] at hread
  exact (Except.ok.inj hread).symm

end Collabswarm.Ucan
