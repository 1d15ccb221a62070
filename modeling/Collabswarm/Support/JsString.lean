import Mathlib.Tactic
import Collabswarm.Support.Bytes

/-!
# Strings of 16-bit code units

A string is a sequence of 16-bit code units.  Reading it by code points pairs a
leading with a trailing surrogate; a surrogate without its partner stands alone
and is not a Unicode scalar value.

A string becomes UTF-8 after every lone surrogate is replaced by U+FFFD, and a
byte string is read as UTF-8 with every maximal ill-formed part replaced by
U+FFFD and one leading byte-order mark dropped.
-/

namespace Collabswarm

/-- A string: a sequence of 16-bit code units. -/
abbrev JsString := List UInt16

instance : LawfulBEq JsString := inferInstanceAs (LawfulBEq (List UInt16))

namespace JsString

/-- A code unit that opens a surrogate pair. -/
def isLead (u : UInt16) : Bool := 0xD800 ≤ u.toNat && u.toNat < 0xDC00

/-- A code unit that closes a surrogate pair. -/
def isTrail (u : UInt16) : Bool := 0xDC00 ≤ u.toNat && u.toNat < 0xE000

/-- A code point of a string: a scalar value or a surrogate on its own. -/
inductive CodePoint where
  | scalar (c : Char)
  | lone (u : UInt16)
  deriving DecidableEq, Repr

/-- The code units of a scalar value. -/
def unitsOfChar (c : Char) : JsString :=
  if c.toNat < 0x10000 then [UInt16.ofNat c.toNat]
  else
    [UInt16.ofNat (0xD800 + (c.toNat - 0x10000) / 0x400),
      UInt16.ofNat (0xDC00 + (c.toNat - 0x10000) % 0x400)]

/-- The code units of a code point. -/
def CodePoint.units : CodePoint → JsString
  | .scalar c => unitsOfChar c
  | .lone u => [u]

/-- The code point of a code unit that is not part of a pair. -/
def single (u : UInt16) : CodePoint :=
  if isLead u || isTrail u then .lone u else .scalar (Char.ofNat u.toNat)

/-- The scalar value of a surrogate pair. -/
def pair (u v : UInt16) : CodePoint :=
  .scalar (Char.ofNat
    (0x10000 + (u.toNat - 0xD800) * 0x400 + (v.toNat - 0xDC00)))

/-- The code points of a string. -/
def codePoints : JsString → List CodePoint
  | [] => []
  | [u] => [single u]
  | u :: v :: rest =>
      if isLead u && isTrail v then pair u v :: codePoints rest
      else single u :: codePoints (v :: rest)

/-- No surrogate of the string stands alone. -/
def WellFormed (s : JsString) : Prop :=
  ∀ u, CodePoint.lone u ∉ codePoints s

instance (s : JsString) : Decidable (WellFormed s) :=
  decidable_of_iff
    ((codePoints s).all fun p => match p with
      | .scalar _ => true
      | .lone _ => false) (by
    rw [List.all_eq_true]
    constructor
    · intro h u hu
      simpa using h _ hu
    · intro h p hp
      cases p with
      | scalar c => rfl
      | lone u => exact absurd hp (h u))

/-- The string of a sequence of scalar values. -/
def ofChars (cs : List Char) : JsString := cs.flatMap unitsOfChar

/-- The string of a text. -/
def ofString (s : String) : JsString := ofChars s.toList

/-! ## Reading by code points loses nothing -/

theorem toNat_ofNat_of_valid {n : ℕ} (h : n.isValidChar) :
    (Char.ofNat n).toNat = n := by
  rw [Char.ofNat, dif_pos h]
  rfl

theorem units_single (u : UInt16) : (single u).units = [u] := by
  by_cases hu : (isLead u || isTrail u) = true
  · rw [single, if_pos hu, CodePoint.units]
  · have hlt := u.toNat_lt
    have hvalid : u.toNat.isValidChar := by
      simp only [isLead, isTrail, Bool.or_eq_true, Bool.and_eq_true,
        decide_eq_true_eq] at hu
      unfold Nat.isValidChar
      omega
    rw [single, if_neg hu, CodePoint.units, unitsOfChar,
      toNat_ofNat_of_valid hvalid, if_pos (by omega)]
    simp

theorem units_pair {u v : UInt16} (hu : isLead u = true)
    (hv : isTrail v = true) : (pair u v).units = [u, v] := by
  simp only [isLead, isTrail, Bool.and_eq_true, decide_eq_true_eq] at hu hv
  have hvalid : (0x10000 + (u.toNat - 0xD800) * 0x400 +
      (v.toNat - 0xDC00)).isValidChar := by
    unfold Nat.isValidChar
    omega
  rw [pair, CodePoint.units, unitsOfChar, toNat_ofNat_of_valid hvalid,
    if_neg (by omega)]
  have hlead : 0xD800 + (0x10000 + (u.toNat - 0xD800) * 0x400 +
      (v.toNat - 0xDC00) - 0x10000) / 0x400 = u.toNat := by omega
  have htrail : 0xDC00 + (0x10000 + (u.toNat - 0xD800) * 0x400 +
      (v.toNat - 0xDC00) - 0x10000) % 0x400 = v.toNat := by omega
  rw [hlead, htrail]
  simp

/-- The code units of the code points of a string are the string. -/
theorem flatMap_units_codePoints (s : JsString) :
    (codePoints s).flatMap CodePoint.units = s := by
  induction s using codePoints.induct with
  | case1 => rfl
  | case2 u => simp [codePoints, units_single]
  | case3 u v rest h ih =>
      obtain ⟨hu, hv⟩ := Bool.and_eq_true_iff.1 h
      rw [codePoints, if_pos h, List.flatMap_cons, ih, units_pair hu hv]
      rfl
  | case4 u v rest h ih =>
      rw [codePoints, if_neg h, List.flatMap_cons, ih, units_single]
      rfl

/-! ## UTF-8 -/

/-- The scalar value that stands for what is not one. -/
def replacement : Char := '\uFFFD'

/-- The scalar value a code point is encoded as. -/
def CodePoint.toScalar : CodePoint → Char
  | .scalar c => c
  | .lone _ => replacement

/-- The scalar values of a string, lone surrogates replaced. -/
def scalars (s : JsString) : List Char := (codePoints s).map CodePoint.toScalar

/-- The UTF-8 bytes of a sequence of scalar values. -/
def utf8 (cs : List Char) : Bytes := cs.flatMap String.utf8EncodeChar

/-- The bytes a `TextEncoder` makes of a string. -/
def textEncode (s : JsString) : Bytes := utf8 (scalars s)

/-- The number of bytes that follow a leading byte, and the range of the first
of them; `none` for a byte that leads no well-formed sequence. -/
def following (b : UInt8) : Option (ℕ × ℕ × ℕ) :=
  if 0xC2 ≤ b.toNat ∧ b.toNat ≤ 0xDF then some (1, 0x80, 0xBF)
  else if b.toNat = 0xE0 then some (2, 0xA0, 0xBF)
  else if b.toNat = 0xED then some (2, 0x80, 0x9F)
  else if 0xE1 ≤ b.toNat ∧ b.toNat ≤ 0xEF then some (2, 0x80, 0xBF)
  else if b.toNat = 0xF0 then some (3, 0x90, 0xBF)
  else if b.toNat = 0xF4 then some (3, 0x80, 0x8F)
  else if 0xF1 ≤ b.toNat ∧ b.toNat ≤ 0xF3 then some (3, 0x80, 0xBF)
  else none

/-- The length of the maximal ill-formed part at the front. -/
def illFormed : Bytes → ℕ
  | [] => 0
  | b :: rest =>
      match following b, rest with
      | some (n, lower, upper), c :: rest =>
          if lower ≤ c.toNat ∧ c.toNat ≤ upper then
            2 + ((rest.take (n - 1)).takeWhile fun d =>
              0x80 ≤ d.toNat && d.toNat ≤ 0xBF).length
          else 1
      | _, _ => 1

/-- Read scalar values from the front of a byte string, at most `fuel` of
them. -/
def readScalars : ℕ → Bytes → List Char
  | 0, _ => []
  | _ + 1, [] => []
  | fuel + 1, b :: rest =>
      match (b :: rest).toByteArray.utf8DecodeChar? 0 with
      | some c => c :: readScalars fuel ((b :: rest).drop c.utf8Size)
      | none =>
          replacement :: readScalars fuel ((b :: rest).drop (illFormed (b :: rest)))

/-- The scalar values a `TextDecoder` makes of a byte string. -/
def textDecode (bytes : Bytes) : List Char :=
  match readScalars bytes.length bytes with
  | '\uFEFF' :: cs => cs
  | cs => cs

@[simp] theorem utf8_cons (c : Char) (cs : List Char) :
    utf8 (c :: cs) = String.utf8EncodeChar c ++ utf8 cs :=
  List.flatMap_cons

theorem utf8EncodeChar_ne_nil (c : Char) : String.utf8EncodeChar c ≠ [] := by
  intro h
  have hlength := String.length_utf8EncodeChar c
  have hpos := c.utf8Size_pos
  rw [h, List.length_nil] at hlength
  omega

/-- What was written is read back. -/
theorem readScalars_utf8 (cs : List Char) :
    ∀ fuel, (utf8 cs).length ≤ fuel → readScalars fuel (utf8 cs) = cs := by
  induction cs with
  | nil =>
      intro fuel _
      cases fuel <;> rfl
  | cons c cs ih =>
      intro fuel hfuel
      rw [utf8_cons] at hfuel ⊢
      have hlength := String.length_utf8EncodeChar c
      have hpos := c.utf8Size_pos
      rw [List.length_append, hlength] at hfuel
      obtain ⟨fuel, rfl⟩ : ∃ n, fuel = n + 1 := ⟨fuel - 1, by omega⟩
      obtain ⟨b, rest, hcons⟩ :=
        List.exists_cons_of_ne_nil (utf8EncodeChar_ne_nil c)
      have hdecode : ByteArray.utf8DecodeChar?
          (String.utf8EncodeChar c ++ utf8 cs).toByteArray 0 = some c := by
        rw [List.toByteArray_append]
        exact ByteArray.utf8DecodeChar?_utf8EncodeChar_append
      have hdrop : (String.utf8EncodeChar c ++ utf8 cs).drop c.utf8Size =
          utf8 cs := by
        rw [← hlength, List.drop_left]
      rw [hcons, List.cons_append] at hdecode hdrop ⊢
      rw [readScalars, hdecode]
      dsimp only
      rw [hdrop, ih fuel (by omega)]

/-- UTF-8 without a leading byte-order mark is decoded to what was encoded. -/
theorem textDecode_utf8 {cs : List Char} (h : cs.head? ≠ some '\uFEFF') :
    textDecode (utf8 cs) = cs := by
  rw [textDecode, readScalars_utf8 cs _ le_rfl]
  cases cs with
  | nil => rfl
  | cons c cs =>
      have hc : c ≠ '\uFEFF' := by simpa using h
      split
      · rename_i heq
        exact absurd (List.cons.inj heq).1 hc
      · rfl

/-- One leading byte-order mark is dropped. -/
theorem textDecode_utf8_cons_bom (cs : List Char) :
    textDecode (utf8 ('\uFEFF' :: cs)) = cs := by
  rw [textDecode, readScalars_utf8 _ _ le_rfl]
  rfl

/-- What is decoded is encoded as the same bytes exactly if they are UTF-8
without a leading byte-order mark. -/
theorem utf8_textDecode_iff (bytes : Bytes) :
    utf8 (textDecode bytes) = bytes ↔
      ∃ cs, bytes = utf8 cs ∧ cs.head? ≠ some '\uFEFF' := by
  constructor
  · intro h
    refine ⟨textDecode bytes, h.symm, fun hhead => ?_⟩
    obtain ⟨cs, hcs⟩ := List.head?_eq_some_iff.1 hhead
    -- the mark would have been dropped
    have hdrop := textDecode_utf8_cons_bom cs
    rw [← hcs, h, hcs] at hdrop
    exact List.cons_ne_self _ _ hdrop
  · rintro ⟨cs, rfl, hhead⟩
    rw [textDecode_utf8 hhead]

/-- The scalar values a `TextDecoder` that is `fatal` makes of a byte string.
It throws where a part is ill-formed: the replacement of such a part is encoded
as other bytes. -/
def textDecodeFatal (bytes : Bytes) : Option (List Char) :=
  if utf8 (readScalars bytes.length bytes) = bytes then some (textDecode bytes)
  else none

theorem textDecodeFatal_utf8 {cs : List Char} (h : cs.head? ≠ some '\uFEFF') :
    textDecodeFatal (utf8 cs) = some cs := by
  rw [textDecodeFatal, readScalars_utf8 cs _ le_rfl, if_pos rfl,
    textDecode_utf8 h]

/-- The code units of a scalar value are read as that value. -/
theorem codePoints_unitsOfChar_append (c : Char) (s : JsString) :
    codePoints (unitsOfChar c ++ s) = .scalar c :: codePoints s := by
  have hvalid : c.toNat.isValidChar := c.valid
  rw [Nat.isValidChar] at hvalid
  rw [unitsOfChar]
  split
  · rename_i hbmp
    have hunit : (UInt16.ofNat c.toNat).toNat = c.toNat := by
      rw [UInt16.toNat_ofNat']
      omega
    have hlead : isLead (UInt16.ofNat c.toNat) = false := by
      rw [isLead, hunit]
      simp only [Bool.and_eq_false_iff, decide_eq_false_iff_not]
      omega
    have htrail : isTrail (UInt16.ofNat c.toNat) = false := by
      rw [isTrail, hunit]
      simp only [Bool.and_eq_false_iff, decide_eq_false_iff_not]
      omega
    have hsingle : single (UInt16.ofNat c.toNat) = .scalar c := by
      simp [single, hlead, htrail, hunit]
    rw [List.singleton_append]
    rcases s with _ | ⟨v, rest⟩
    · rw [← hsingle]
      rfl
    · rw [codePoints, hlead, Bool.false_and, if_neg Bool.false_ne_true,
        hsingle]
  · rename_i hastral
    have hhigh : (UInt16.ofNat (0xD800 + (c.toNat - 0x10000) / 0x400)).toNat =
        0xD800 + (c.toNat - 0x10000) / 0x400 := by
      rw [UInt16.toNat_ofNat']
      omega
    have hlow : (UInt16.ofNat (0xDC00 + (c.toNat - 0x10000) % 0x400)).toNat =
        0xDC00 + (c.toNat - 0x10000) % 0x400 := by
      rw [UInt16.toNat_ofNat']
      omega
    have hpair : (isLead (UInt16.ofNat (0xD800 + (c.toNat - 0x10000) / 0x400))
        && isTrail (UInt16.ofNat (0xDC00 + (c.toNat - 0x10000) % 0x400))) =
          true := by
      rw [isLead, isTrail, hhigh, hlow]
      simp only [Bool.and_eq_true, decide_eq_true_eq]
      omega
    have hscalar : 0x10000 + (0xD800 + (c.toNat - 0x10000) / 0x400 - 0xD800) *
        0x400 + (0xDC00 + (c.toNat - 0x10000) % 0x400 - 0xDC00) =
          c.toNat := by
      omega
    rw [List.cons_append, List.singleton_append, codePoints, if_pos hpair,
      pair, hhigh, hlow, hscalar, Char.ofNat_toNat]

/-- The scalar values of a text are read back from its code units. -/
theorem scalars_ofChars (cs : List Char) : scalars (ofChars cs) = cs := by
  induction cs with
  | nil => rfl
  | cons c cs ih =>
      rw [ofChars, List.flatMap_cons, ← ofChars, scalars,
        codePoints_unitsOfChar_append, List.map_cons, ← scalars, ih]
      rfl

/-- Different sequences of scalar values have different bytes. -/
theorem utf8_injective : Function.Injective utf8 := by
  intro cs cs' h
  rw [← readScalars_utf8 cs _ le_rfl, h, readScalars_utf8 cs' _ le_rfl]

/-- A string without lone surrogates is read back from its scalar values. -/
theorem ofChars_scalars {s : JsString} (hs : WellFormed s) :
    ofChars (scalars s) = s := by
  have hmap : ∀ p ∈ codePoints s, p.units = unitsOfChar p.toScalar := by
    intro p hp
    cases p with
    | scalar c => rfl
    | lone u => exact absurd hp (hs u)
  calc
    ofChars (scalars s) =
        (codePoints s).flatMap fun p => unitsOfChar p.toScalar := by
      rw [ofChars, scalars, List.flatMap_map]
    _ = (codePoints s).flatMap CodePoint.units :=
      (List.flatMap_congr hmap).symm
    _ = s := flatMap_units_codePoints s

/-- A code unit that is no surrogate is a code point between any two
strings. -/
theorem codePoints_append_cons {u : UInt16} (hlead : isLead u = false)
    (htrail : isTrail u = false) (s t : JsString) :
    codePoints (s ++ u :: t) = codePoints s ++ single u :: codePoints t := by
  have hunit : codePoints (u :: t) = single u :: codePoints t := by
    cases t with
    | nil => rfl
    | cons v t => rw [codePoints, hlead, Bool.false_and, if_neg Bool.false_ne_true]
  induction s using codePoints.induct with
  | case1 => exact hunit
  | case2 v =>
      change codePoints (v :: u :: t) = single v :: single u :: codePoints t
      rw [codePoints, htrail, Bool.and_false, if_neg Bool.false_ne_true, hunit]
  | case3 v w rest h ih =>
      rw [List.cons_append, List.cons_append, codePoints, if_pos h, ih,
        codePoints, if_pos h]
      rfl
  | case4 v w rest h ih =>
      rw [List.cons_append, List.cons_append, codePoints, if_neg h,
        ← List.cons_append, ih, codePoints, if_neg h]
      rfl

/-- Strings without lone surrogates can be joined by a code unit that is no
surrogate. -/
theorem wellFormed_intercalate {u : UInt16} (hlead : isLead u = false)
    (htrail : isTrail u = false) {ss : List JsString}
    (h : ∀ s ∈ ss, WellFormed s) : WellFormed ([u].intercalate ss) := by
  induction ss with
  | nil =>
      intro v hv
      cases hv
  | cons s ss ih =>
      have hs := h s List.mem_cons_self
      have htail := ih fun t ht => h t (List.mem_cons_of_mem _ ht)
      cases ss with
      | nil =>
          rw [List.intercalate_singleton]
          exact hs
      | cons t ss =>
          intro v hv
          rw [List.intercalate_cons_cons, List.append_assoc,
            List.singleton_append, codePoints_append_cons hlead htrail] at hv
          rcases List.mem_append.1 hv with hv | hv
          · exact hs v hv
          rcases List.mem_cons.1 hv with hv | hv
          · rw [single, hlead, htrail, if_neg (by decide)] at hv
            cases hv
          · exact htail v hv

/-- Strings without lone surrogates are encoded differently. -/
theorem textEncode_inj {s s' : JsString} (hs : WellFormed s)
    (hs' : WellFormed s') (h : textEncode s = textEncode s') : s = s' := by
  have hscalars : scalars s = scalars s' := utf8_injective h
  rw [← ofChars_scalars hs, ← ofChars_scalars hs', hscalars]

/-- A string whose bytes begin with those of a scalar value begins with that
value, unless a lone surrogate was replaced. -/
theorem exists_append_of_textEncode {s : JsString} {c : Char} {rest : Bytes}
    (hc : c ≠ replacement)
    (h : textEncode s = String.utf8EncodeChar c ++ rest) :
    ∃ s', s = unitsOfChar c ++ s' := by
  rcases hpoints : codePoints s with _ | ⟨p, ps⟩
  · rw [textEncode, scalars, hpoints] at h
    have hnil := (List.append_eq_nil_iff.1 h.symm).1
    exact absurd hnil (utf8EncodeChar_ne_nil c)
  · rw [textEncode, scalars, hpoints, List.map_cons, utf8_cons] at h
    have hdecode := congrArg (fun b : Bytes =>
      ByteArray.utf8DecodeChar? b.toByteArray 0) h
    simp only [List.toByteArray_append,
      ByteArray.utf8DecodeChar?_utf8EncodeChar_append,
      Option.some.injEq] at hdecode
    have hunits := flatMap_units_codePoints s
    rw [hpoints, List.flatMap_cons] at hunits
    refine ⟨ps.flatMap CodePoint.units, ?_⟩
    cases p with
    | scalar c' =>
        obtain rfl : c' = c := hdecode
        exact hunits.symm
    | lone u => exact absurd hdecode.symm hc

end JsString

end Collabswarm
