import Collabswarm.Index.Value
import Collabswarm.Support.Lists

/-!
# Blind index tokens

A token is the truncated signature of the normalized value.  A compound token
signs the normalized values of a list, joined with NUL characters and encoded
as UTF-8.  A string may itself contain NUL characters, and the encoder replaces
lone surrogates, so different lists may have the same token.
-/

namespace Collabswarm.Index.SubtleBlindIndexProvider

open JsString

/-! ## The provider -/

/-- A value that is indexed. -/
inductive FieldValue where
  | str (s : JsString)
  | num (x : JsNumber)
  deriving DecidableEq

/-- Lower case, and the decimal text of a number. -/
structure Conversions where
  toLowerCase : JsString → JsString
  numberToString : JsNumber → JsString

/-- A character that `trim` removes: white space or a line terminator. -/
def isWhiteSpace (u : UInt16) : Bool :=
  (0x09 ≤ u && u ≤ 0x0D) || u == 0x20 || u == 0xA0 || u == 0x1680 ||
    (0x2000 ≤ u && u ≤ 0x200A) || u == 0x2028 || u == 0x2029 || u == 0x202F ||
    u == 0x205F || u == 0x3000 || u == 0xFEFF

/-- `String.prototype.trim`. -/
def trim (s : JsString) : JsString :=
  ((s.dropWhile isWhiteSpace).reverse.dropWhile isWhiteSpace).reverse

/-- `_normalize`. -/
def normalize (c : Conversions) : FieldValue → JsString
  | .num x => ofString "n:" ++ c.numberToString x
  | .str s => ofString "s:" ++ trim (c.toLowerCase s)

/-- What `computeCompoundToken` signs. -/
def compoundInput (c : Conversions) (values : List FieldValue) : Bytes :=
  textEncode ([0].intercalate (values.map (normalize c)))

/-- `_truncateAndEncode`. -/
def truncateAndEncode (btoa : Bytes → List Char) (tokenLengthBytes : ℕ)
    (bytes : Bytes) : List Char :=
  let text := (btoa (bytes.take tokenLengthBytes)).map fun ch =>
    if ch = '+' then '-' else if ch = '/' then '_' else ch
  (text.reverse.dropWhile (· == '=')).reverse

section Tokens

variable {Key : Type} (c : Conversions) (sign : Key → Bytes → Bytes)
  (btoa : Bytes → List Char) (tokenLengthBytes : ℕ)

/-- `computeToken`. -/
def computeToken (fieldKey : Key) (value : FieldValue) : List Char :=
  truncateAndEncode btoa tokenLengthBytes
    (sign fieldKey (textEncode (normalize c value)))

/-- `computeCompoundToken`. -/
def computeCompoundToken (fieldKey : Key) (values : List FieldValue) :
    List Char :=
  truncateAndEncode btoa tokenLengthBytes (sign fieldKey (compoundInput c values))

end Tokens

/-! ## Cutting strings at NUL characters -/

/-- The pieces between the NUL characters of a string, as they are encoded. -/
def pieces (s : JsString) : List (List Char) := (s.splitOn 0).map scalars

theorem scalars_append_nul (s t : JsString) :
    scalars (s ++ 0 :: t) = scalars s ++ '\x00' :: scalars t := by
  rw [scalars, codePoints_append_cons rfl rfl, List.map_append, List.map_cons]
  rfl

/-- Encoding goes through joining. -/
theorem scalars_intercalate {ss : List JsString} :
    scalars ([0].intercalate ss) = ['\x00'].intercalate (ss.map scalars) := by
  induction ss with
  | nil => rfl
  | cons s ss ih =>
      cases ss with
      | nil => simp
      | cons t ss =>
          rw [List.map_cons] at ih
          rw [List.intercalate_cons_cons, List.map_cons, List.map_cons,
            List.intercalate_cons_cons, ← ih, List.append_assoc,
            List.append_assoc, List.singleton_append, List.singleton_append,
            scalars_append_nul]

theorem nul_notMem_scalars {s : JsString} (h : 0 ∉ s) :
    '\x00' ∉ scalars s := by
  intro hmem
  obtain ⟨p, hp, hscalar⟩ := List.mem_map.1 hmem
  cases p with
  | scalar ch =>
      obtain rfl : ch = '\x00' := hscalar
      have hunit : (0 : UInt16) ∈ (codePoints s).flatMap CodePoint.units :=
        List.mem_flatMap.2 ⟨_, hp, by decide⟩
      rw [flatMap_units_codePoints] at hunit
      exact h hunit
  | lone u =>
      have hne : replacement ≠ '\x00' := by decide
      exact absurd hscalar hne

theorem nul_notMem_splitOn (s : JsString) : ∀ t ∈ s.splitOn 0, 0 ∉ t := by
  induction s with
  | nil => simp
  | cons u s ih =>
      rw [List.splitOn_cons_eq_if_modifyHead]
      split
      · rename_i hu
        simpa using ih
      · rename_i hu
        rcases hsplit : s.splitOn 0 with _ | ⟨t, ts⟩
        · simp
        · rw [hsplit] at ih
          have hne : (0 : UInt16) ≠ u := fun h => hu (by simp [h])
          intro t' ht'
          rcases List.mem_cons.1 ht' with rfl | ht'
          · exact List.not_mem_cons_of_ne_of_not_mem hne
              (ih t List.mem_cons_self)
          · exact ih t' (List.mem_cons_of_mem _ ht')

theorem intercalate_append {α : Type} (sep : List α) {xs ys : List (List α)}
    (hxs : xs ≠ []) (hys : ys ≠ []) :
    sep.intercalate (xs ++ ys) =
      sep.intercalate xs ++ sep ++ sep.intercalate ys := by
  induction xs with
  | nil => exact absurd rfl hxs
  | cons x xs ih =>
      cases xs with
      | nil => simp [List.intercalate_cons_of_ne_nil hys]
      | cons y xs =>
          rw [List.cons_append, List.cons_append, List.intercalate_cons_cons,
            ← List.cons_append, ih (by simp), List.intercalate_cons_cons]
          simp only [List.append_assoc]

/-- Joining the parts of the strings joins the strings. -/
theorem intercalate_flatMap_splitOn (ss : List JsString) :
    [0].intercalate (ss.flatMap fun s => s.splitOn 0) = [0].intercalate ss := by
  induction ss with
  | nil => rfl
  | cons s ss ih =>
      cases ss with
      | nil => simp
      | cons t ss =>
          have hne : ((t :: ss).flatMap fun s => s.splitOn 0) ≠ [] := by
            simp
          rw [List.flatMap_cons,
            intercalate_append _ (List.splitOn_ne_nil 0 s) hne,
            ih, List.intercalate_splitOn, List.intercalate_cons_cons]

/-- What is signed is the pieces, joined. -/
theorem scalars_intercalate_eq (ss : List JsString) :
    scalars ([0].intercalate ss) = ['\x00'].intercalate (ss.flatMap pieces) := by
  rw [← intercalate_flatMap_splitOn, scalars_intercalate, List.map_flatMap]
  rfl

theorem nul_notMem_pieces {ss : List JsString} :
    ∀ t ∈ ss.flatMap pieces, '\x00' ∉ t := by
  intro t ht
  obtain ⟨s, -, ht⟩ := List.mem_flatMap.1 ht
  obtain ⟨u, hu, rfl⟩ := List.mem_map.1 ht
  exact nul_notMem_scalars (nul_notMem_splitOn s u hu)

/-! ## Lists with one input -/

theorem normalize_ne_nil (c : Conversions) (value : FieldValue) :
    normalize c value ≠ [] := by
  cases value with
  | str s => simp [normalize, ofString, ofChars, unitsOfChar]
  | num x => simp [normalize, ofString, ofChars, unitsOfChar]

theorem pieces_ne_nil (s : JsString) : pieces s ≠ [] := by
  simp [pieces]

theorem flatMap_pieces_eq_nil {ss : List JsString}
    (h : ss.flatMap pieces = []) : ss = [] := by
  cases ss with
  | nil => rfl
  | cons s ss =>
      rw [List.flatMap_cons, List.append_eq_nil_iff] at h
      exact absurd h.1 (pieces_ne_nil s)

theorem eq_nil_of_scalars {s : JsString} (h : scalars s = []) : s = [] := by
  rw [← flatMap_units_codePoints s, List.map_eq_nil_iff.1 h]
  rfl

/-- Two lists of strings that are not empty are encoded alike exactly if their
pieces are. -/
theorem encoded_eq_iff {ss ts : List JsString} (hss : ∀ s ∈ ss, s ≠ [])
    (hts : ∀ t ∈ ts, t ≠ []) :
    textEncode ([0].intercalate ss) = textEncode ([0].intercalate ts) ↔
      ss.flatMap pieces = ts.flatMap pieces := by
  have hnil : ∀ us : List JsString, (∀ u ∈ us, u ≠ []) →
      scalars ([0].intercalate us) = [] → us = [] := fun us hus h =>
    eq_nil_of_intercalate hus (eq_nil_of_scalars h)
  constructor
  · intro h
    have hscalars := utf8_injective h
    by_cases hs : ss = []
    · subst hs
      rw [hnil ts hts hscalars.symm]
    by_cases ht : ts = []
    · subst ht
      rw [hnil ss hss hscalars]
    -- neither list is empty, so its pieces are read back from what is signed
    rw [scalars_intercalate_eq, scalars_intercalate_eq] at hscalars
    have hsplit := congrArg (List.splitOn '\x00') hscalars
    rwa [List.splitOn_intercalate _ nul_notMem_pieces
        (mt flatMap_pieces_eq_nil hs),
      List.splitOn_intercalate _ nul_notMem_pieces
        (mt flatMap_pieces_eq_nil ht)] at hsplit
  · intro h
    rw [textEncode, textEncode, scalars_intercalate_eq, h,
      ← scalars_intercalate_eq]

/-- The code points of a string that are encoded as U+FFFD. -/
def replaced (s : JsString) : List CodePoint :=
  (codePoints s).filter fun p => decide (p.toScalar = replacement)

theorem toScalar_inj {p q : CodePoint} (h : p.toScalar = q.toScalar)
    (hp : p.toScalar ≠ replacement) : p = q := by
  cases p with
  | scalar ch =>
      cases q with
      | scalar ch' => exact congrArg CodePoint.scalar h
      | lone u => exact absurd h hp
  | lone u => exact absurd rfl hp

/-- Code points are determined by their scalar values and the code points that
become U+FFFD. -/
theorem eq_of_scalars_of_replaced : ∀ {ps qs : List CodePoint},
    ps.map CodePoint.toScalar = qs.map CodePoint.toScalar →
    (ps.filter fun p => decide (p.toScalar = replacement)) =
      (qs.filter fun p => decide (p.toScalar = replacement)) → ps = qs := by
  intro ps
  induction ps with
  | nil =>
      intro qs hmap _
      exact (List.map_eq_nil_iff.1 hmap.symm).symm
  | cons p ps ih =>
      intro qs hmap hfilter
      cases qs with
      | nil => cases hmap
      | cons q qs =>
          obtain ⟨hpq, hrest⟩ := List.cons.inj hmap
          by_cases hp : p.toScalar = replacement
          · have hq : q.toScalar = replacement := hpq ▸ hp
            rw [List.filter_cons_of_pos (by simpa using hp),
              List.filter_cons_of_pos (by simpa using hq)] at hfilter
            obtain ⟨rfl, htail⟩ := List.cons.inj hfilter
            rw [ih hrest htail]
          · have hq : q.toScalar ≠ replacement := hpq ▸ hp
            rw [List.filter_cons_of_neg (by simpa using hp),
              List.filter_cons_of_neg (by simpa using hq)] at hfilter
            rw [toScalar_inj hpq hp, ih hrest hfilter]

theorem length_splitOn (s : JsString) :
    (s.splitOn 0).length = s.count 0 + 1 := by
  induction s with
  | nil => rfl
  | cons u s ih =>
      rw [List.splitOn_cons_eq_if_modifyHead, List.count_cons]
      split
      · rw [List.length_cons, ih]
      · rw [List.length_modifyHead, ih, Nat.add_zero]

theorem length_pieces (s : JsString) : (pieces s).length = s.count 0 + 1 := by
  rw [pieces, List.length_map, length_splitOn]

/-- A string is encoded as its pieces, joined. -/
theorem scalars_eq_intercalate_pieces (s : JsString) :
    scalars s = ['\x00'].intercalate (pieces s) := by
  have h := scalars_intercalate_eq [s]
  rwa [List.intercalate_singleton, List.flatMap_singleton] at h

/-- Lists of strings with the same pieces are equal if each pair has the same
number of NUL characters and the same code points are encoded as U+FFFD. -/
theorem eq_of_pieces_eq {ss ts : List JsString}
    (hpieces : ss.flatMap pieces = ts.flatMap pieces)
    (hcount : ss.map (List.count 0) = ts.map (List.count 0))
    (hreplaced : ss.flatMap replaced = ts.flatMap replaced) : ss = ts := by
  have hlengths : ∀ us : List JsString,
      (us.map pieces).map List.length = (us.map (List.count 0)).map (· + 1) := by
    intro us
    rw [List.map_map, List.map_map]
    exact List.map_congr_left fun u _ => length_pieces u
  have heach : ss.map pieces = ts.map pieces := by
    rw [List.eq_iff_flatten_eq, ← List.flatMap_def, ← List.flatMap_def,
      hlengths, hlengths, hcount]
    exact ⟨hpieces, rfl⟩
  have hscalars : ss.map scalars = ts.map scalars := by
    have hjoin := congrArg (List.map (['\x00'].intercalate ·)) heach
    rw [List.map_map, List.map_map] at hjoin
    calc
      ss.map scalars = ss.map ((['\x00'].intercalate ·) ∘ pieces) :=
        List.map_congr_left fun s _ => scalars_eq_intercalate_pieces s
      _ = ts.map ((['\x00'].intercalate ·) ∘ pieces) := hjoin
      _ = ts.map scalars :=
        (List.map_congr_left fun t _ => scalars_eq_intercalate_pieces t).symm
  -- the code points of all strings together, then those of each
  have hpoints : ss.flatMap codePoints = ts.flatMap codePoints := by
    apply eq_of_scalars_of_replaced
    · rw [List.map_flatMap, List.map_flatMap, List.flatMap_def,
        List.flatMap_def]
      exact congrArg List.flatten hscalars
    · rw [List.filter_flatMap, List.filter_flatMap]
      exact hreplaced
  have hpoint : ss.map codePoints = ts.map codePoints := by
    have hlength : ∀ us : List JsString,
        (us.map codePoints).map List.length =
          (us.map scalars).map List.length := by
      intro us
      simp [scalars, Function.comp_def]
    rw [List.eq_iff_flatten_eq, ← List.flatMap_def, ← List.flatMap_def,
      hlength, hlength, hscalars]
    exact ⟨hpoints, rfl⟩
  have hunits := congrArg (List.map (List.flatMap CodePoint.units)) hpoint
  simpa [Function.comp_def, flatMap_units_codePoints] using hunits

/-! ## Compound tokens -/

section CompoundTokens

variable (c : Conversions)

/-- The pieces of the normalized values, one after the other. -/
def allPieces (values : List FieldValue) : List (List Char) :=
  values.flatMap fun v => pieces (normalize c v)

/-- The number of NUL characters in each normalized value. -/
def nulCounts (values : List FieldValue) : List ℕ :=
  values.map fun v => (normalize c v).count 0

/-- What is encoded as U+FFFD in the normalized values. -/
def allReplaced (values : List FieldValue) : List CodePoint :=
  values.flatMap fun v => replaced (normalize c v)

theorem compoundInput_eq_iff (values others : List FieldValue) :
    compoundInput c values = compoundInput c others ↔
      allPieces c values = allPieces c others := by
  have hne : ∀ vs : List FieldValue, ∀ s ∈ vs.map (normalize c), s ≠ [] := by
    intro vs s hs
    obtain ⟨v, -, rfl⟩ := List.mem_map.1 hs
    exact normalize_ne_nil c v
  rw [compoundInput, compoundInput, encoded_eq_iff (hne values) (hne others),
    List.flatMap_map, List.flatMap_map]
  rfl

variable {Key : Type} (sign : Key → Bytes → Bytes) (btoa : Bytes → List Char)
  (tokenLengthBytes : ℕ)

/-- A compound token of one value is the token of the value. -/
theorem computeCompoundToken_singleton (fieldKey : Key) (value : FieldValue) :
    computeCompoundToken c sign btoa tokenLengthBytes fieldKey [value] =
      computeToken c sign btoa tokenLengthBytes fieldKey value := by
  rw [computeCompoundToken, computeToken, compoundInput, List.map_singleton,
    List.intercalate_singleton]

/-- Lists whose normalized values have the same pieces have the same compound
token under every key. -/
theorem computeCompoundToken_eq_of_allPieces (fieldKey : Key)
    {values others : List FieldValue}
    (h : allPieces c values = allPieces c others) :
    computeCompoundToken c sign btoa tokenLengthBytes fieldKey values =
      computeCompoundToken c sign btoa tokenLengthBytes fieldKey others := by
  rw [computeCompoundToken, computeCompoundToken,
    (compoundInput_eq_iff c values others).2 h]

/-- Equal inputs come from equal lists of normalized values exactly if equal
pieces never hide where a value ends or which character was replaced. -/
theorem compoundInput_injective_iff (values others : List FieldValue) :
    (compoundInput c values = compoundInput c others →
      values.length = others.length ∧
        values.map (normalize c) = others.map (normalize c)) ↔
    (allPieces c values = allPieces c others →
      nulCounts c values = nulCounts c others ∧
        allReplaced c values = allReplaced c others) := by
  rw [compoundInput_eq_iff]
  refine forall_congr' fun hpieces => ⟨?_, ?_⟩
  · rintro ⟨-, h⟩
    have hcounts := congrArg (List.map (List.count 0)) h
    have hreplaced := congrArg (List.flatMap replaced) h
    rw [List.map_map, List.map_map] at hcounts
    rw [List.flatMap_map, List.flatMap_map] at hreplaced
    exact ⟨hcounts, hreplaced⟩
  · rintro ⟨hcounts, hreplaced⟩
    have h : values.map (normalize c) = others.map (normalize c) := by
      apply eq_of_pieces_eq
      · rw [List.flatMap_map, List.flatMap_map]
        exact hpieces
      · rw [List.map_map, List.map_map]
        exact hcounts
      · rw [List.flatMap_map, List.flatMap_map]
        exact hreplaced
    have hlength := congrArg List.length h
    rw [List.length_map, List.length_map] at hlength
    exact ⟨hlength, h⟩

/-- Without NUL characters and characters that become U+FFFD, compound tokens
of different lists are made from different inputs. -/
theorem map_normalize_eq_of_compoundInput_eq {values others : List FieldValue}
    (hclean : ∀ v ∈ values ++ others,
      0 ∉ normalize c v ∧ replaced (normalize c v) = [])
    (h : compoundInput c values = compoundInput c others) :
    values.map (normalize c) = others.map (normalize c) := by
  have hcounts : ∀ vs : List FieldValue, (∀ v ∈ vs, v ∈ values ++ others) →
      nulCounts c vs = List.replicate vs.length 0 := by
    intro vs hvs
    rw [List.eq_replicate_iff]
    refine ⟨List.length_map _, fun k hk => ?_⟩
    obtain ⟨v, hv, rfl⟩ := List.mem_map.1 hk
    exact List.count_eq_zero_of_not_mem (hclean v (hvs v hv)).1
  have hreplaced : ∀ vs : List FieldValue, (∀ v ∈ vs, v ∈ values ++ others) →
      allReplaced c vs = [] := by
    intro vs hvs
    rw [allReplaced, List.flatMap_eq_nil_iff]
    exact fun v hv => (hclean v (hvs v hv)).2
  have hpieces : ∀ vs : List FieldValue, (∀ v ∈ vs, v ∈ values ++ others) →
      (allPieces c vs).length = vs.length := by
    intro vs hvs
    have hone : ∀ v ∈ vs, (pieces (normalize c v)).length = 1 := by
      intro v hv
      rw [length_pieces,
        List.count_eq_zero_of_not_mem (hclean v (hvs v hv)).1]
    rw [allPieces, List.length_flatMap, List.map_congr_left hone]
    simp
  have hleft : ∀ v ∈ values, v ∈ values ++ others := fun v hv =>
    List.mem_append_left _ hv
  have hright : ∀ v ∈ others, v ∈ values ++ others := fun v hv =>
    List.mem_append_right _ hv
  refine ((compoundInput_injective_iff c values others).2 (fun heq => ?_) h).2
  have hlength := congrArg List.length heq
  rw [hpieces values hleft, hpieces others hright] at hlength
  rw [hcounts values hleft, hcounts others hright, hlength,
    hreplaced values hleft, hreplaced others hright]
  exact ⟨rfl, rfl⟩

end CompoundTokens

/-- Lower case for the letters of ASCII; numbers other than natural numbers
have no text here. -/
def asciiConversions : Conversions where
  toLowerCase := List.map fun u =>
    if 0x41 ≤ u && u ≤ 0x5A then u + 0x20 else u
  numberToString
    | .finite q => ofChars (Nat.toDigits 10 q.num.toNat)
    | _ => []

/-- A string that contains a NUL character and a prefix, against two strings. -/
theorem compoundInput_not_injective :
    ¬ ∀ (c : Conversions) (values others : List FieldValue),
      compoundInput c values = compoundInput c others →
        values.length = others.length ∧
          values.map (normalize c) = others.map (normalize c) := by
  intro h
  have hlength := (h asciiConversions [.str (ofString "a\x00s:b")]
    [.str (ofString "a"), .str (ofString "b")] (by decide +kernel)).1
  exact absurd hlength (by decide)

end Collabswarm.Index.SubtleBlindIndexProvider
