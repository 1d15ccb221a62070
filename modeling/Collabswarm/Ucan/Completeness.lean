import Collabswarm.Ucan.TokenText

/-!
# Which delegations are accepted

A token whose proofs are all in order need not be accepted: the fingerprints
of the tokens met are kept in one set for the whole walk, so a token that two
branches share is taken for a cycle when it is met again.  For tokens in
order, the walk accepts exactly those whose proofs unfold, depth first, into
pairwise different tokens.
-/

namespace Collabswarm.Ucan

open JsString

section Completeness

variable {Time Key : Type} [LT Time] [DecidableLT Time]
  {S : Setting Time Key}

/-- Every chain of proofs from `u` has at most `depth` tokens, and along each
of them the tokens are signed and timely, each proof is addressed to the issuer
of the token it proves and grants its capabilities, and the last token is
issued by the root key. -/
def Delegated (S : Setting Time Key) : ℕ → UCAN Time → Prop
  | 0, _ => False
  | depth + 1, u =>
      Signed S u ∧ Timely S u ∧ (u.proofs = [] → RootIssued S u) ∧
        ∀ proofStr ∈ u.proofs, ∃ proof,
          deserializeUCAN S.text proofStr = .ok proof ∧
          proof.audience = u.issuer ∧ Narrows u proof ∧
          Delegated S depth proof

/-- The fingerprints of the unfolding of a token, depth first: its own and,
for each of its proofs, those of the unfolding of that proof. -/
def fingerprints (text : TextFunctions Time) : ℕ → UCAN Time → List JsString
  | 0, _ => []
  | depth + 1, u =>
      serializeUCAN text u :: u.proofs.flatMap fun proofStr =>
        match deserializeUCAN text proofStr with
        | .ok proof => fingerprints text depth proof
        | .error _ => []

/-! ## Fresh fingerprints -/

/-- The fingerprints are pairwise different and not among those met before. -/
def Fresh (fps visited : List JsString) : Prop :=
  fps.Nodup ∧ ∀ fp ∈ fps, fp ∉ visited

theorem fresh_nil (visited : List JsString) : Fresh [] visited := by
  simp [Fresh]

theorem fresh_cons {fp : JsString} {fps visited : List JsString} :
    Fresh (fp :: fps) visited ↔ fp ∉ visited ∧ Fresh fps (fp :: visited) := by
  rw [Fresh, Fresh, List.nodup_cons, List.forall_mem_cons]
  simp only [List.mem_cons, not_or]
  constructor
  · rintro ⟨⟨hfp, hnodup⟩, hnew, hfresh⟩
    refine ⟨hnew, hnodup, fun fp' hmem => ⟨?_, hfresh fp' hmem⟩⟩
    rintro rfl
    exact hfp hmem
  · rintro ⟨hnew, hnodup, hfresh⟩
    exact ⟨⟨fun hmem => (hfresh fp hmem).1 rfl, hnodup⟩, hnew,
      fun fp' hmem => (hfresh fp' hmem).2⟩

theorem fresh_append {fps fps' visited : List JsString} :
    Fresh (fps ++ fps') visited ↔
      Fresh fps visited ∧ Fresh fps' (fps.reverse ++ visited) := by
  induction fps generalizing visited with
  | nil => simp [fresh_nil]
  | cons fp fps ih =>
      rw [List.cons_append, fresh_cons, fresh_cons, ih, List.reverse_cons,
        List.append_assoc, List.singleton_append, and_assoc]

theorem fresh_nil_right {fps : List JsString} : Fresh fps [] ↔ fps.Nodup := by
  simp [Fresh]

/-! ## The walk over tokens in order -/

/-- The message about a token met twice. -/
def circular : JsString :=
  ofString "Circular delegation detected in UCAN chain"

/-- The walk accepts where the fingerprints are fresh, and then it has met
them all; otherwise it reports a cycle. -/
structure Decides (fps visited : List JsString)
    (result : Except JsString (Verdict × List JsString)) : Prop where
  accepts : Fresh fps visited → result = .ok (.valid, fps.reverse ++ visited)
  refuses : ¬ Fresh fps visited →
    ∃ visited', result = .ok (.invalid circular, visited')

/-- The tests before the proofs of a token that is signed and timely only look
for its fingerprint. -/
theorem validateWithin_signed {depth : ℕ} {u : UCAN Time}
    {visited : List JsString} (hsigned : Signed S u) (htimely : Timely S u)
    (hroot : u.proofs = [] → RootIssued S u) :
    validateWithin S (depth + 1) u visited =
      if serializeUCAN S.text u ∈ visited then .ok (.invalid circular, visited)
      else validateProofs S (validateWithin S depth) u u.proofs
        (serializeUCAN S.text u :: visited) := by
  obtain ⟨issuerKey, hissuer, hverified⟩ := hsigned
  have hexpiration : ¬ u.expiration.any (fun t => t < S.now) := by
    rw [Option.any_eq_true]
    rintro ⟨t, ht, hlt⟩
    exact htimely.1 t ht (of_decide_eq_true hlt)
  have hnotBefore : ¬ u.notBefore.any (fun t => S.now < t) := by
    rw [Option.any_eq_true]
    rintro ⟨t, ht, hlt⟩
    exact htimely.2 t ht (of_decide_eq_true hlt)
  rw [validateWithin]
  dsimp only
  by_cases hmem : serializeUCAN S.text u ∈ visited
  · rw [if_pos hmem, if_pos hmem]
    rfl
  rw [if_neg hmem, if_neg hmem, if_neg hexpiration, if_neg hnotBefore, hissuer]
  simp only [bind, Except.bind, hverified, Bool.not_true, Bool.false_eq_true,
    if_false]
  by_cases hproofs : u.proofs = []
  · obtain ⟨rootKey, hrootKey, hroot⟩ := hroot hproofs
    rw [hissuer] at hrootKey
    cases hrootKey
    have hvalid : validateRoot S issuerKey = .valid := by
      rw [validateRoot, if_neg (not_not.2 hroot.symm)]
    rw [if_pos hproofs, hproofs, hvalid, validateProofs]
    rfl
  · rw [if_neg hproofs]

omit [LT Time] [DecidableLT Time] in
theorem find?_of_narrows {u proof : UCAN Time} (h : Narrows u proof) :
    u.capabilities.find? (!proof.covers ·) = none := by
  refine List.find?_eq_none.2 fun cap hcap => ?_
  simpa [UCAN.covers] using h cap hcap

omit [LT Time] [DecidableLT Time] in
/-- A proof that is in order is passed on to `validate`. -/
theorem validateProofs_cons
    {validate : UCAN Time → List JsString →
      Except JsString (Verdict × List JsString)}
    {u proof : UCAN Time} {proofStr : JsString}
    {proofs visited : List JsString}
    (hproof : deserializeUCAN S.text proofStr = .ok proof)
    (haudience : proof.audience = u.issuer) (hnarrows : Narrows u proof) :
    validateProofs S validate u (proofStr :: proofs) visited =
      validate proof visited >>= fun result =>
        match result with
        | (.valid, visited) => validateProofs S validate u proofs visited
        | (.invalid error, visited) => .ok (.invalid error, visited) := by
  rw [validateProofs, hproof]
  simp only [bind, Except.bind, haudience, ne_eq, not_true_eq_false, if_false,
    find?_of_narrows hnarrows]
  rcases validate proof visited with error | ⟨_ | error, visited'⟩ <;> rfl

omit [LT Time] [DecidableLT Time] in
/-- The loop over proofs in order decides on the fingerprints of all of
them. -/
theorem validateProofs_decides
    {validate : UCAN Time → List JsString →
      Except JsString (Verdict × List JsString)}
    {fpsOf : JsString → List JsString} {u : UCAN Time}
    {proofs : List JsString} {visited : List JsString}
    (h : ∀ proofStr ∈ proofs, ∃ proof,
      deserializeUCAN S.text proofStr = .ok proof ∧
      proof.audience = u.issuer ∧ Narrows u proof ∧
      ∀ visited, Decides (fpsOf proofStr) visited (validate proof visited)) :
    Decides (proofs.flatMap fpsOf) visited
      (validateProofs S validate u proofs visited) := by
  induction proofs generalizing visited with
  | nil =>
      rw [List.flatMap_nil, validateProofs]
      exact ⟨fun _ => rfl, fun hfresh => absurd (fresh_nil visited) hfresh⟩
  | cons proofStr proofs ih =>
      obtain ⟨⟨proof, hproof, haudience, hnarrows, hdecides⟩, hrest⟩ :=
        List.forall_mem_cons.1 h
      rw [List.flatMap_cons, validateProofs_cons hproof haudience hnarrows]
      by_cases hfirst : Fresh (fpsOf proofStr) visited
      · have hrec : Decides (proofs.flatMap fpsOf)
            ((fpsOf proofStr).reverse ++ visited)
            (validateProofs S validate u proofs
              ((fpsOf proofStr).reverse ++ visited)) := ih hrest
        rw [(hdecides visited).accepts hfirst]
        constructor
        · intro hfresh
          have hresult := hrec.accepts (fresh_append.1 hfresh).2
          rw [List.reverse_append, List.append_assoc]
          exact hresult
        · intro hfresh
          exact hrec.refuses fun hafter =>
            hfresh (fresh_append.2 ⟨hfirst, hafter⟩)
      · obtain ⟨visited', hrefused⟩ := (hdecides visited).refuses hfirst
        rw [hrefused]
        exact ⟨fun hfresh => absurd (fresh_append.1 hfresh).1 hfirst,
          fun _ => ⟨visited', rfl⟩⟩

/-- The walk decides on the fingerprints of a token in order. -/
theorem Delegated.decides {depth : ℕ} {u : UCAN Time} (h : Delegated S depth u)
    (visited : List JsString) :
    Decides (fingerprints S.text depth u) visited
      (validateWithin S depth u visited) := by
  induction depth generalizing u visited with
  | zero => exact h.elim
  | succ depth ih =>
      obtain ⟨hsigned, htimely, hroot, hproofs⟩ := h
      rw [validateWithin_signed hsigned htimely hroot, fingerprints]
      by_cases hmem : serializeUCAN S.text u ∈ visited
      · rw [if_pos hmem]
        exact ⟨fun hfresh => absurd hmem (fresh_cons.1 hfresh).1,
          fun _ => ⟨visited, rfl⟩⟩
      · rw [if_neg hmem]
        have hloop : Decides
            (u.proofs.flatMap fun proofStr =>
              match deserializeUCAN S.text proofStr with
              | .ok proof => fingerprints S.text depth proof
              | .error _ => [])
            (serializeUCAN S.text u :: visited)
            (validateProofs S (validateWithin S depth) u u.proofs
              (serializeUCAN S.text u :: visited)) := by
          apply validateProofs_decides
          intro proofStr hproofStr
          obtain ⟨proof, hproof, haudience, hnarrows, hdelegated⟩ :=
            hproofs proofStr hproofStr
          refine ⟨proof, hproof, haudience, hnarrows, fun visited => ?_⟩
          rw [hproof]
          exact ih hdelegated visited
        constructor
        · intro hfresh
          rw [hloop.accepts (fresh_cons.1 hfresh).2, List.reverse_cons,
            List.append_assoc, List.singleton_append]
        · intro hfresh
          exact hloop.refuses fun hafter =>
            hfresh (fresh_cons.2 ⟨hmem, hafter⟩)

/-- A token in order is accepted where no token occurs twice in its unfolding,
and otherwise it is refused for a cycle that its proofs need not have. -/
theorem validateUCANChain_of_delegated {u : UCAN Time}
    (h : Delegated S 10 u) :
    validateUCANChain S u = .ok
      (if (fingerprints S.text 10 u).Nodup then .valid
      else .invalid circular) := by
  have hdecides := h.decides []
  rw [validateUCANChain]
  split
  · rename_i hnodup
    rw [hdecides.accepts (fresh_nil_right.2 hnodup)]
    rfl
  · rename_i hnodup
    obtain ⟨visited, hrefused⟩ :=
      hdecides.refuses fun hfresh => hnodup (fresh_nil_right.1 hfresh)
    rw [hrefused]
    rfl

/-- Exactly when a token in order is accepted. -/
theorem validateUCANChain_complete (S : Setting Time Key) (u : UCAN Time)
    (h : Delegated S 10 u) :
    validateUCANChain S u = .ok .valid ↔
      (fingerprints S.text 10 u).Nodup := by
  rw [validateUCANChain_of_delegated h]
  by_cases hnodup : (fingerprints S.text 10 u).Nodup
  · rw [if_pos hnodup]
    exact ⟨fun _ => hnodup, fun _ => rfl⟩
  · rw [if_neg hnodup]
    exact ⟨fun hvalid => (by cases hvalid), fun hfps => absurd hfps hnodup⟩

end Completeness

/-! ## A shared proof -/

section SharedProof

/-- The delegate also passes `/doc/admin` on to the user. -/
def adminToken : UCAN ℕ where
  version := ofString "0.1.0"
  issuer := ofString "delegate"
  audience := ofString "user"
  capabilities := [⟨ofString "doc-1", capDocAdmin⟩]
  expiration := none
  notBefore := none
  nonce := ofString "02"
  proofs := [serializeUCAN jsonText rootToken]
  signature := ofChars (encodeBase64 (textEncode (ofString "delegate")))

/-- The user grants `/doc/read` to a guest and encloses both of its tokens,
which have the same proof. -/
def guestToken : UCAN ℕ where
  version := ofString "0.1.0"
  issuer := ofString "user"
  audience := ofString "guest"
  capabilities := [⟨ofString "doc-1", capDocRead⟩]
  expiration := none
  notBefore := none
  nonce := ofString "03"
  proofs := [serializeUCAN jsonText delegatedToken,
    serializeUCAN jsonText adminToken]
  signature := ofChars (encodeBase64 (textEncode (ofString "user")))

/-- The unfolding of a token whose proofs are texts of tokens. -/
theorem fingerprints_of_texts (depth : ℕ) (tokens : List (UCAN ℕ))
    {u : UCAN ℕ} (h : u.proofs = tokens.map (serializeUCAN jsonText)) :
    fingerprints jsonText (depth + 1) u = serializeUCAN jsonText u ::
      tokens.flatMap (fingerprints jsonText depth) := by
  rw [fingerprints, h, List.flatMap_map]
  simp only [deserializeUCAN_serializeUCAN]

theorem fingerprints_rootToken (depth : ℕ) :
    fingerprints jsonText (depth + 1) rootToken =
      [serializeUCAN jsonText rootToken] :=
  fingerprints_of_texts depth [] rfl

theorem fingerprints_delegatedToken (depth : ℕ) :
    fingerprints jsonText (depth + 2) delegatedToken =
      [serializeUCAN jsonText delegatedToken,
        serializeUCAN jsonText rootToken] := by
  rw [fingerprints_of_texts (depth + 1) [rootToken] rfl,
    List.flatMap_singleton, fingerprints_rootToken]

theorem fingerprints_adminToken (depth : ℕ) :
    fingerprints jsonText (depth + 2) adminToken =
      [serializeUCAN jsonText adminToken,
        serializeUCAN jsonText rootToken] := by
  rw [fingerprints_of_texts (depth + 1) [rootToken] rfl,
    List.flatMap_singleton, fingerprints_rootToken]

theorem fingerprints_guestToken (depth : ℕ) :
    fingerprints jsonText (depth + 3) guestToken =
      [serializeUCAN jsonText guestToken,
        serializeUCAN jsonText delegatedToken,
        serializeUCAN jsonText rootToken, serializeUCAN jsonText adminToken,
        serializeUCAN jsonText rootToken] := by
  rw [fingerprints_of_texts (depth + 2) [delegatedToken, adminToken] rfl, List.flatMap_cons, List.flatMap_singleton,
    fingerprints_delegatedToken, fingerprints_adminToken]
  rfl

theorem delegated_rootToken (depth : ℕ) :
    Delegated creatorSetting (depth + 1) rootToken := by
  refine ⟨⟨_, rfl, by decide +kernel⟩, ⟨?_, ?_⟩, fun _ => ⟨_, rfl, rfl⟩, ?_⟩
  · intro t ht
    cases ht
    decide
  · intro t ht
    cases ht
  · intro proofStr hmem
    cases hmem

theorem delegated_delegatedToken (depth : ℕ) :
    Delegated creatorSetting (depth + 2) delegatedToken := by
  refine ⟨⟨_, rfl, by decide +kernel⟩, ⟨?_, ?_⟩, fun h => ?_, ?_⟩
  · intro t ht
    cases ht
  · intro t ht
    cases ht
    decide
  · cases h
  · intro proofStr hmem
    cases List.mem_singleton.1 hmem
    exact ⟨rootToken, deserializeUCAN_serializeUCAN _, rfl,
      narrows_of_find? (by decide +kernel), delegated_rootToken depth⟩

theorem delegated_adminToken (depth : ℕ) :
    Delegated creatorSetting (depth + 2) adminToken := by
  refine ⟨⟨_, rfl, by decide +kernel⟩, ⟨?_, ?_⟩, fun h => ?_, ?_⟩
  · intro t ht
    cases ht
  · intro t ht
    cases ht
  · cases h
  · intro proofStr hmem
    cases List.mem_singleton.1 hmem
    exact ⟨rootToken, deserializeUCAN_serializeUCAN _, rfl,
      narrows_of_find? (by decide +kernel), delegated_rootToken depth⟩

theorem delegated_guestToken (depth : ℕ) :
    Delegated creatorSetting (depth + 3) guestToken := by
  refine ⟨⟨_, rfl, by decide +kernel⟩, ⟨?_, ?_⟩, fun h => ?_, ?_⟩
  · intro t ht
    cases ht
  · intro t ht
    cases ht
  · cases h
  · intro proofStr hmem
    rcases List.mem_cons.1 hmem with rfl | hmem
    · exact ⟨delegatedToken, deserializeUCAN_serializeUCAN _, rfl,
        narrows_of_find? (by decide +kernel), delegated_delegatedToken depth⟩
    · cases List.mem_singleton.1 hmem
      exact ⟨adminToken, deserializeUCAN_serializeUCAN _, rfl,
        narrows_of_find? (by decide +kernel), delegated_adminToken depth⟩

/-- The token of the delegate, with one proof, is accepted. -/
theorem validateUCANChain_complete_delegated :
    validateUCANChain creatorSetting delegatedToken = .ok .valid := by
  refine (validateUCANChain_complete creatorSetting delegatedToken
    (delegated_delegatedToken 8)).2 ?_
  change (fingerprints jsonText 10 delegatedToken).Nodup
  rw [fingerprints_delegatedToken, List.nodup_cons, List.mem_singleton]
  refine ⟨fun h => ?_, List.nodup_singleton _⟩
  have hissuer := congrArg UCAN.issuer (serializeUCAN_injective h)
  revert hissuer
  decide

/-- The token of the guest is in order, and its two proofs share theirs; the
second time the walk comes to the root it reports a cycle. -/
theorem validateUCANChain_incomplete :
    Delegated creatorSetting 10 guestToken ∧
      validateUCANChain creatorSetting guestToken =
        .ok (.invalid circular) := by
  have hdelegated := delegated_guestToken 7
  have htwice : ¬ (fingerprints creatorSetting.text 10 guestToken).Nodup := by
    change ¬ (fingerprints jsonText 10 guestToken).Nodup
    rw [fingerprints_guestToken]
    simp
  refine ⟨hdelegated, ?_⟩
  rw [validateUCANChain_of_delegated hdelegated, if_neg htwice]

end SharedProof

end Collabswarm.Ucan
