import Mathlib.Tactic
import Collabswarm.Support.JsString
import Collabswarm.Support.InsertionMap

/-!
# JSON texts

JSON values with the members of an object in the order of their insertion, the
text `JSON.stringify` makes of a value, and `JSON.parse`.  A number that is not
a natural number is known by its numeral, the text that `JSON.stringify` writes
for it: a text with any other numeral is not read.

A value without repeated member names is read back from its text.
-/

namespace Collabswarm

namespace Json

/-- A character of a numeral. -/
def isNumeralChar (c : Char) : Bool :=
  c.isDigit || c = '-' || c = '+' || c = '.' || c = 'e'

/-- The digits of a natural number. -/
def isNatural (text : List Char) : Bool :=
  Nat.toDigits 10 (Nat.ofDigitChars 10 text 0) = text

/-- An exponent or nothing. -/
def isExponent : List Char → Bool
  | [] => true
  | 'e' :: sign :: digits => (sign = '-' || sign = '+') && isNatural digits
  | _ => false

/-- Digits behind a point or nothing, and an exponent or nothing. -/
def isFraction : List Char → Bool
  | '.' :: rest =>
      let digits := rest.takeWhile Char.isDigit
      !digits.isEmpty && digits.getLast? ≠ some '0' &&
        isExponent (rest.dropWhile Char.isDigit)
  | rest => isExponent rest

/-- The numeral of a number without its sign. -/
def isUnsigned (text : List Char) : Bool :=
  isNatural (text.takeWhile Char.isDigit) &&
    isFraction (text.dropWhile Char.isDigit)

/-- The numeral of a number with its sign.  Without a sign it has no positive
exponent: such a number is a natural number. -/
def isSigned : List Char → Bool
  | '-' :: text => text ≠ ['0'] && isUnsigned text
  | text => text.all (· ≠ '+') && isUnsigned text

/-- The numeral of a number that is not a natural number: it is negative, or it
has a fraction. -/
def isNumeral (text : List Char) : Bool :=
  text.all isNumeralChar && text.any (fun c => c = '-' || c = '.') &&
    isSigned text

/-- A number that is not a natural number. -/
structure Numeral where
  text : List Char
  valid : isNumeral text = true
deriving DecidableEq

end Json

/-- A JSON value. -/
inductive Json where
  | null
  | bool (b : Bool)
  | num (n : ℕ)
  | real (x : Json.Numeral)
  | str (s : JsString)
  | arr (elements : List Json)
  | obj (members : List (JsString × Json))

namespace Json

open JsString

/-! ## Writing -/

/-- A hexadecimal digit, in lower case. -/
def hexDigit (n : ℕ) : Char := Nat.digitChar n

/-- The escape of a code unit by its number. -/
def unicodeEscape (u : UInt16) : List Char :=
  ['\\', 'u', hexDigit (u.toNat / 4096), hexDigit (u.toNat / 256 % 16),
    hexDigit (u.toNat / 16 % 16), hexDigit (u.toNat % 16)]

/-- The text of a scalar value inside a string. -/
def quoteChar (c : Char) : List Char :=
  if c = '"' then ['\\', '"']
  else if c = '\\' then ['\\', '\\']
  else if c = '\x08' then ['\\', 'b']
  else if c = '\x0c' then ['\\', 'f']
  else if c = '\n' then ['\\', 'n']
  else if c = '\r' then ['\\', 'r']
  else if c = '\t' then ['\\', 't']
  else if c.toNat < 0x20 then unicodeEscape (UInt16.ofNat c.toNat)
  else [c]

/-- The text of a code point inside a string. -/
def quoteCodePoint : CodePoint → List Char
  | .scalar c => quoteChar c
  | .lone u => unicodeEscape u

/-- The text of a string. -/
def quote (s : JsString) : List Char :=
  '"' :: ((codePoints s).flatMap quoteCodePoint ++ ['"'])

mutual

/-- The text of a value. -/
def stringify : Json → List Char
  | .null => ['n', 'u', 'l', 'l']
  | .bool true => ['t', 'r', 'u', 'e']
  | .bool false => ['f', 'a', 'l', 's', 'e']
  | .num n => Nat.toDigits 10 n
  | .real x => x.text
  | .str s => quote s
  | .arr [] => ['[', ']']
  | .arr (x :: xs) => '[' :: (stringify x ++ stringifyElements xs)
  | .obj [] => ['{', '}']
  | .obj ((k, v) :: ms) =>
      '{' :: (quote k ++ ':' :: (stringify v ++ stringifyMembers ms))

/-- The text of the further elements of an array and its end. -/
def stringifyElements : List Json → List Char
  | [] => [']']
  | x :: xs => ',' :: (stringify x ++ stringifyElements xs)

/-- The text of the further members of an object and its end. -/
def stringifyMembers : List (JsString × Json) → List Char
  | [] => ['}']
  | (k, v) :: ms =>
      ',' :: (quote k ++ ':' :: (stringify v ++ stringifyMembers ms))

end

/-! ## Reading -/

/-- The value of a hexadecimal digit. -/
def hexValue (c : Char) : Option ℕ :=
  if '0' ≤ c ∧ c ≤ '9' then some (c.toNat - 48)
  else if 'a' ≤ c ∧ c ≤ 'f' then some (c.toNat - 87)
  else if 'A' ≤ c ∧ c ≤ 'F' then some (c.toNat - 55)
  else none

/-- The code unit of four hexadecimal digits. -/
def hexUnit (a b c d : Char) : Option UInt16 := do
  let a ← hexValue a
  let b ← hexValue b
  let c ← hexValue c
  let d ← hexValue d
  return UInt16.ofNat (a * 4096 + b * 256 + c * 16 + d)

/-- The character a short escape stands for. -/
def unescape : Char → Option Char
  | '"' => some '"'
  | '\\' => some '\\'
  | '/' => some '/'
  | 'b' => some '\x08'
  | 'f' => some '\x0c'
  | 'n' => some '\n'
  | 'r' => some '\r'
  | 't' => some '\t'
  | _ => none

/-- Put code units in front of a string that was read. -/
def prepend (units : JsString) (read : Option (JsString × List Char)) :
    Option (JsString × List Char) :=
  read.map fun p => (units ++ p.1, p.2)

/-- Read the rest of a string behind its opening quote. -/
def parseString : List Char → Option (JsString × List Char)
  | [] => none
  | '"' :: rest => some ([], rest)
  | '\\' :: 'u' :: a :: b :: c :: d :: rest =>
      match hexUnit a b c d with
      | some u => prepend [u] (parseString rest)
      | none => none
  | '\\' :: e :: rest =>
      match unescape e with
      | some c => prepend (unitsOfChar c) (parseString rest)
      | none => none
  | c :: rest =>
      if c = '\\' ∨ c.toNat < 0x20 then none
      else prepend (unitsOfChar c) (parseString rest)

/-- Skip white space. -/
def skipSpace : List Char → List Char
  | [] => []
  | c :: rest =>
      if c = ' ' ∨ c = '\t' ∨ c = '\n' ∨ c = '\r' then skipSpace rest
      else c :: rest

/-- Read a numeral. -/
def parseNumber (text : List Char) : Option (Json × List Char) :=
  let numeral := text.takeWhile isNumeralChar
  let rest := text.dropWhile isNumeralChar
  if h : isNumeral numeral = true then some (.real ⟨numeral, h⟩, rest)
  else if isNatural numeral then
    some (.num (Nat.ofDigitChars 10 numeral 0), rest)
  else none

/-- The members of an object in which a repeated name keeps its first place and
gets its last value. -/
def ofMembers (ms : List (JsString × Json)) : List (JsString × Json) :=
  ms.foldl (fun acc m => InsertionMap.setEntries m.1 m.2 acc) []

mutual

/-- Read a value. -/
def parseValue : ℕ → List Char → Option (Json × List Char)
  | 0, _ => none
  | fuel + 1, text =>
      match skipSpace text with
      | 'n' :: 'u' :: 'l' :: 'l' :: rest => some (.null, rest)
      | 't' :: 'r' :: 'u' :: 'e' :: rest => some (.bool true, rest)
      | 'f' :: 'a' :: 'l' :: 's' :: 'e' :: rest => some (.bool false, rest)
      | '"' :: rest =>
          match parseString rest with
          | some (s, rest) => some (.str s, rest)
          | none => none
      | '[' :: rest =>
          match skipSpace rest with
          | ']' :: rest => some (.arr [], rest)
          | rest =>
              match parseValue fuel rest with
              | some (x, rest) =>
                  match parseElements fuel rest with
                  | some (xs, rest) => some (.arr (x :: xs), rest)
                  | none => none
              | none => none
      | '{' :: rest =>
          match skipSpace rest with
          | '}' :: rest => some (.obj [], rest)
          | rest =>
              match parseMember fuel rest with
              | some (m, rest) =>
                  match parseMembers fuel rest with
                  | some (ms, rest) => some (.obj (ofMembers (m :: ms)), rest)
                  | none => none
              | none => none
      | rest => parseNumber rest

/-- Read the further elements of an array and its end. -/
def parseElements : ℕ → List Char → Option (List Json × List Char)
  | 0, _ => none
  | fuel + 1, text =>
      match skipSpace text with
      | ']' :: rest => some ([], rest)
      | ',' :: rest =>
          match parseValue fuel rest with
          | some (x, rest) =>
              match parseElements fuel rest with
              | some (xs, rest) => some (x :: xs, rest)
              | none => none
          | none => none
      | _ => none

/-- Read a member of an object. -/
def parseMember : ℕ → List Char → Option ((JsString × Json) × List Char)
  | 0, _ => none
  | fuel + 1, text =>
      match skipSpace text with
      | '"' :: rest =>
          match parseString rest with
          | some (k, rest) =>
              match skipSpace rest with
              | ':' :: rest =>
                  match parseValue fuel rest with
                  | some (v, rest) => some ((k, v), rest)
                  | none => none
              | _ => none
          | none => none
      | _ => none

/-- Read the further members of an object and its end. -/
def parseMembers : ℕ → List Char → Option (List (JsString × Json) × List Char)
  | 0, _ => none
  | fuel + 1, text =>
      match skipSpace text with
      | '}' :: rest => some ([], rest)
      | ',' :: rest =>
          match parseMember fuel rest with
          | some (m, rest) =>
              match parseMembers fuel rest with
              | some (ms, rest) => some (m :: ms, rest)
              | none => none
          | none => none
      | _ => none

end

/-- Read a text that holds one value.  Every unit of fuel that is spent reads a
character. -/
def parse (text : List Char) : Option Json :=
  match parseValue text.length text with
  | some (j, rest) => if skipSpace rest = [] then some j else none
  | none => none

mutual

/-- No object inside the value repeats a member name. -/
def Distinct : Json → Prop
  | .arr xs => DistinctElements xs
  | .obj ms => (ms.map Prod.fst).Nodup ∧ DistinctMembers ms
  | _ => True

/-- No object inside the elements repeats a member name. -/
def DistinctElements : List Json → Prop
  | [] => True
  | x :: xs => Distinct x ∧ DistinctElements xs

/-- No object inside the members repeats a member name. -/
def DistinctMembers : List (JsString × Json) → Prop
  | [] => True
  | (_, v) :: ms => Distinct v ∧ DistinctMembers ms

end

theorem distinctMembers_iff {ms : List (JsString × Json)} :
    DistinctMembers ms ↔ ∀ m ∈ ms, m.2.Distinct := by
  induction ms with
  | nil => simp [DistinctMembers]
  | cons m ms ih => simp [DistinctMembers, ih]

/-! ## Strings are read back -/

theorem hexValue_hexDigit : ∀ n < 16, hexValue (hexDigit n) = some n := by
  decide

theorem hexUnit_of_toNat (u : UInt16) :
    hexUnit (hexDigit (u.toNat / 4096)) (hexDigit (u.toNat / 256 % 16))
      (hexDigit (u.toNat / 16 % 16)) (hexDigit (u.toNat % 16)) = some u := by
  have hlt := u.toNat_lt
  have hsum : u.toNat / 4096 * 4096 + u.toNat / 256 % 16 * 256 +
      u.toNat / 16 % 16 * 16 + u.toNat % 16 = u.toNat := by omega
  simp only [hexUnit, hexValue_hexDigit (u.toNat / 4096) (by omega),
    hexValue_hexDigit _ (Nat.mod_lt _ (by decide : 16 > 0)), Option.bind_eq_bind,
    Option.bind_some, hsum]
  simp

theorem parseString_unicodeEscape (u : UInt16) (rest : List Char) :
    parseString (unicodeEscape u ++ rest) = prepend [u] (parseString rest) := by
  simp only [unicodeEscape, List.cons_append, List.nil_append, parseString,
    hexUnit_of_toNat]

theorem parseString_quoteChar (c : Char) (rest : List Char) :
    parseString (quoteChar c ++ rest) =
      prepend (unitsOfChar c) (parseString rest) := by
  unfold quoteChar
  split_ifs with hquote hslash hb hf hn hr ht hcontrol
  · subst hquote
    rfl
  · subst hslash
    rfl
  · subst hb
    rfl
  · subst hf
    rfl
  · subst hn
    rfl
  · subst hr
    rfl
  · subst ht
    rfl
  · rw [parseString_unicodeEscape, unitsOfChar, if_pos (by omega)]
  · rw [List.singleton_append, parseString]
    · rw [if_neg]
      rintro (h | h)
      · exact hslash h
      · exact hcontrol h
    · exact hquote
    · intro a b c d rest h
      exact absurd h hslash
    · intro e rest h
      exact absurd h hslash

theorem parseString_quoteCodePoint (p : CodePoint) (rest : List Char) :
    parseString (quoteCodePoint p ++ rest) =
      prepend p.units (parseString rest) := by
  cases p with
  | scalar c => exact parseString_quoteChar c rest
  | lone u => exact parseString_unicodeEscape u rest

theorem parseString_quoted (ps : List CodePoint) (rest : List Char) :
    parseString (ps.flatMap quoteCodePoint ++ '"' :: rest) =
      some (ps.flatMap CodePoint.units, rest) := by
  induction ps with
  | nil => rfl
  | cons p ps ih =>
      rw [List.flatMap_cons, List.append_assoc, parseString_quoteCodePoint, ih]
      rfl

/-- A string is read back from its text. -/
theorem parseString_quote (s : JsString) (rest : List Char) :
    ∃ text, quote s ++ rest = '"' :: text ∧
      parseString text = some (s, rest) := by
  refine ⟨(codePoints s).flatMap quoteCodePoint ++ '"' :: rest, ?_, ?_⟩
  · rw [quote]
    simp
  · rw [parseString_quoted, flatMap_units_codePoints]

/-! ## Values are read back -/

/-- What can follow a value: the end of the text, of an array or of an object,
or a comma. -/
def Delimited (rest : List Char) : Prop :=
  rest = [] ∨ ∃ c cs, rest = c :: cs ∧ (c = ',' ∨ c = ']' ∨ c = '}')

theorem delimited_stringifyElements (xs : List Json) (rest : List Char) :
    Delimited (stringifyElements xs ++ rest) := by
  cases xs with
  | nil => exact Or.inr ⟨']', rest, rfl, Or.inr (Or.inl rfl)⟩
  | cons x xs => exact Or.inr ⟨',', _, rfl, Or.inl rfl⟩

theorem delimited_stringifyMembers (ms : List (JsString × Json))
    (rest : List Char) : Delimited (stringifyMembers ms ++ rest) := by
  cases ms with
  | nil => exact Or.inr ⟨'}', rest, rfl, Or.inr (Or.inr rfl)⟩
  | cons m ms => exact Or.inr ⟨',', _, rfl, Or.inl rfl⟩

theorem Delimited.dropWhile {rest : List Char} (h : Delimited rest)
    (cs : List Char) (hcs : ∀ c ∈ cs, isNumeralChar c = true) :
    (cs ++ rest).takeWhile isNumeralChar = cs ∧
      (cs ++ rest).dropWhile isNumeralChar = rest := by
  have hrest : rest.takeWhile isNumeralChar = [] ∧
      rest.dropWhile isNumeralChar = rest := by
    obtain rfl | ⟨c, cs, rfl, rfl | rfl | rfl⟩ := h
    · exact ⟨rfl, rfl⟩
    · exact ⟨rfl, rfl⟩
    · exact ⟨rfl, rfl⟩
    · exact ⟨rfl, rfl⟩
  constructor
  · rw [List.takeWhile_append_of_pos hcs, hrest.1, List.append_nil]
  · rw [List.dropWhile_append_of_pos hcs, hrest.2]

theorem isDigit_toDigits {n : ℕ} {c : Char} (h : c ∈ Nat.toDigits 10 n) :
    c.isDigit = true :=
  Nat.isDigit_of_mem_toDigits (by decide) le_rfl h

/-- The digits of a natural number are no other numeral. -/
theorem isNumeral_toDigits (n : ℕ) : isNumeral (Nat.toDigits 10 n) = false := by
  have hany : (Nat.toDigits 10 n).any (fun c => c = '-' || c = '.') = false := by
    rw [List.any_eq_false]
    intro c hc
    have hdigit := isDigit_toDigits hc
    rw [Bool.or_eq_true, decide_eq_true_eq, decide_eq_true_eq]
    rintro (rfl | rfl)
    · exact absurd hdigit (by decide)
    · exact absurd hdigit (by decide)
  rw [isNumeral, hany, Bool.and_false, Bool.false_and]

theorem parseNumber_toDigits (n : ℕ) {rest : List Char} (h : Delimited rest) :
    parseNumber (Nat.toDigits 10 n ++ rest) = some (.num n, rest) := by
  obtain ⟨htake, hdrop⟩ := h.dropWhile (Nat.toDigits 10 n) fun d hd => by
    rw [isNumeralChar, isDigit_toDigits hd]
    rfl
  have hnatural : isNatural (Nat.toDigits 10 n) = true := by
    rw [isNatural, Nat.ofDigitChars_ten_toDigits]
    exact decide_eq_true rfl
  unfold parseNumber
  simp only [htake, hdrop, isNumeral_toDigits, hnatural, if_true,
    Nat.ofDigitChars_ten_toDigits]
  rfl

theorem Numeral.isNumeralChar (x : Numeral) :
    ∀ c ∈ x.text, Json.isNumeralChar c = true := by
  have hvalid := x.valid
  rw [isNumeral, Bool.and_eq_true, Bool.and_eq_true] at hvalid
  exact List.all_eq_true.1 hvalid.1.1

theorem parseNumber_numeral (x : Numeral) {rest : List Char}
    (h : Delimited rest) :
    parseNumber (x.text ++ rest) = some (.real x, rest) := by
  obtain ⟨htake, hdrop⟩ := h.dropWhile x.text x.isNumeralChar
  unfold parseNumber
  simp only [htake, hdrop, x.valid, dite_true]

/-- A character with which the text of a value can begin. -/
def Opens (c : Char) : Prop :=
  c ≠ ' ' ∧ c ≠ '\t' ∧ c ≠ '\n' ∧ c ≠ '\r' ∧ c ≠ ']'

instance : DecidablePred Opens := fun c =>
  inferInstanceAs
    (Decidable (c ≠ ' ' ∧ c ≠ '\t' ∧ c ≠ '\n' ∧ c ≠ '\r' ∧ c ≠ ']'))

theorem skipSpace_of_opens {c : Char} (h : Opens c) (rest : List Char) :
    skipSpace (c :: rest) = c :: rest := by
  obtain ⟨hspace, htab, hline, hreturn, -⟩ := h
  rw [skipSpace, if_neg]
  rintro (h | h | h | h)
  · exact hspace h
  · exact htab h
  · exact hline h
  · exact hreturn h

theorem opens_of_isNumeralChar {c : Char} (h : isNumeralChar c = true) :
    Opens c := by
  refine ⟨?_, ?_, ?_, ?_, ?_⟩ <;> rintro rfl <;> exact absurd h (by decide)

theorem exists_digit (n : ℕ) :
    ∃ d ds, Nat.toDigits 10 n = d :: ds ∧ isNumeralChar d = true := by
  obtain ⟨d, ds, hds⟩ :=
    List.exists_cons_of_ne_nil (Nat.toDigits_ne_nil (n := n) (b := 10))
  refine ⟨d, ds, hds, ?_⟩
  rw [isNumeralChar, isDigit_toDigits (n := n) (hds ▸ List.mem_cons_self)]
  rfl

theorem Numeral.exists_char (x : Numeral) :
    ∃ c cs, x.text = c :: cs ∧ Json.isNumeralChar c = true := by
  have hne : x.text ≠ [] := by
    intro hnil
    have hvalid := x.valid
    rw [hnil] at hvalid
    exact absurd hvalid (by decide)
  obtain ⟨c, cs, hcs⟩ := List.exists_cons_of_ne_nil hne
  exact ⟨c, cs, hcs, x.isNumeralChar c (hcs ▸ List.mem_cons_self)⟩

theorem exists_opens (j : Json) :
    ∃ c cs, stringify j = c :: cs ∧ Opens c := by
  match j with
  | .null => exact ⟨'n', _, rfl, by decide⟩
  | .bool true => exact ⟨'t', _, rfl, by decide⟩
  | .bool false => exact ⟨'f', _, rfl, by decide⟩
  | .num n =>
      obtain ⟨d, ds, hds, hd⟩ := exists_digit n
      exact ⟨d, ds, hds, opens_of_isNumeralChar hd⟩
  | .real x =>
      obtain ⟨c, cs, hcs, hc⟩ := x.exists_char
      exact ⟨c, cs, hcs, opens_of_isNumeralChar hc⟩
  | .str s => exact ⟨'"', _, rfl, by decide⟩
  | .arr [] => exact ⟨'[', _, rfl, by decide⟩
  | .arr (x :: xs) => exact ⟨'[', _, rfl, by decide⟩
  | .obj [] => exact ⟨'{', _, rfl, by decide⟩
  | .obj ((k, v) :: ms) => exact ⟨'{', _, rfl, by decide⟩

/-- Members without a repeated name are kept as they are. -/
theorem ofMembers_of_nodup {ms : List (JsString × Json)}
    (h : (ms.map Prod.fst).Nodup) : ofMembers ms = ms :=
  InsertionMap.foldl_setEntries_of_nodup ms [] h

theorem length_stringify_pos (j : Json) : 0 < (stringify j).length := by
  obtain ⟨c, cs, hcs, -⟩ := exists_opens j
  rw [hcs]
  exact Nat.succ_pos _

theorem exists_succ {n fuel : ℕ} (hn : 0 < n) (h : n ≤ fuel) :
    ∃ m, fuel = m + 1 :=
  Nat.exists_eq_succ_of_ne_zero (by omega)

theorem parseValue_numeral {d : Char} (hd : isNumeralChar d = true) (fuel : ℕ)
    (text : List Char) :
    parseValue (fuel + 1) (d :: text) = parseNumber (d :: text) := by
  rw [parseValue, skipSpace_of_opens (opens_of_isNumeralChar hd)]
  split
  all_goals first
    | rfl
    | (rename_i h
       rw [(List.cons.inj h).1] at hd
       exact absurd hd (by decide))

theorem parseValue_quote (s : JsString) (fuel : ℕ) (rest : List Char) :
    parseValue (fuel + 1) (quote s ++ rest) = some (.str s, rest) := by
  obtain ⟨text, htext, hread⟩ := parseString_quote s rest
  rw [htext, parseValue, skipSpace_of_opens (by decide)]
  simp only [hread]

theorem parseValue_array {c : Char} (hc : Opens c) (fuel : ℕ)
    {text rest rest' : List Char} {x : Json} {xs : List Json}
    (hx : parseValue fuel (c :: text) = some (x, rest))
    (hxs : parseElements fuel rest = some (xs, rest')) :
    parseValue (fuel + 1) ('[' :: c :: text) = some (.arr (x :: xs), rest') := by
  rw [parseValue, skipSpace_of_opens (by decide)]
  simp only [skipSpace_of_opens hc]
  split
  · rename_i h
    exact absurd (List.cons.inj h).1 hc.2.2.2.2
  · simp only [hx, hxs]

theorem parseMember_quote (k : JsString) (fuel : ℕ) {text rest : List Char}
    {v : Json} (hv : parseValue fuel text = some (v, rest)) :
    parseMember (fuel + 1) (quote k ++ ':' :: text) = some ((k, v), rest) := by
  obtain ⟨text', htext, hread⟩ := parseString_quote k (':' :: text)
  rw [htext, parseMember, skipSpace_of_opens (by decide)]
  simp only [hread]
  rw [skipSpace_of_opens (by decide)]
  simp only [hv]

theorem parseValue_object (k : JsString) (fuel : ℕ)
    {text rest rest' : List Char} {v : Json} {ms : List (JsString × Json)}
    (hv : parseMember fuel (quote k ++ text) = some ((k, v), rest))
    (hms : parseMembers fuel rest = some (ms, rest')) :
    parseValue (fuel + 1) ('{' :: (quote k ++ text)) =
      some (.obj (ofMembers ((k, v) :: ms)), rest') := by
  have hquote : quote k ++ text =
      '"' :: ((codePoints k).flatMap quoteCodePoint ++ ['"'] ++ text) := rfl
  rw [parseValue, skipSpace_of_opens (by decide)]
  rw [hquote] at hv ⊢
  simp only [skipSpace_of_opens (by decide : Opens '"')]
  split
  · rename_i h
    exact absurd (List.cons.inj h).1 (by decide)
  · simp only [hv, hms]

mutual

/-- A value is read back from its text. -/
theorem parseValue_stringify : ∀ (j : Json) (fuel : ℕ) (rest : List Char),
    Distinct j → (stringify j).length ≤ fuel → Delimited rest →
      parseValue fuel (stringify j ++ rest) = some (j, rest)
  | .null, fuel, rest, _, hfuel, _ => by
      obtain ⟨fuel, rfl⟩ := exists_succ (length_stringify_pos _) hfuel
      simp [stringify, parseValue, skipSpace]
  | .bool true, fuel, rest, _, hfuel, _ => by
      obtain ⟨fuel, rfl⟩ := exists_succ (length_stringify_pos _) hfuel
      simp [stringify, parseValue, skipSpace]
  | .bool false, fuel, rest, _, hfuel, _ => by
      obtain ⟨fuel, rfl⟩ := exists_succ (length_stringify_pos _) hfuel
      simp [stringify, parseValue, skipSpace]
  | .num n, fuel, rest, _, hfuel, hrest => by
      obtain ⟨fuel, rfl⟩ := exists_succ (length_stringify_pos _) hfuel
      obtain ⟨d, ds, hds, hd⟩ := exists_digit n
      have hnumber := parseNumber_toDigits n hrest
      rw [stringify]
      rw [hds, List.cons_append] at hnumber ⊢
      rw [parseValue_numeral hd, hnumber]
  | .real x, fuel, rest, _, hfuel, hrest => by
      obtain ⟨fuel, rfl⟩ := exists_succ (length_stringify_pos _) hfuel
      obtain ⟨c, cs, hcs, hc⟩ := x.exists_char
      have hnumber := parseNumber_numeral x hrest
      rw [stringify]
      rw [hcs, List.cons_append] at hnumber ⊢
      rw [parseValue_numeral hc, hnumber]
  | .str s, fuel, rest, _, hfuel, _ => by
      obtain ⟨fuel, rfl⟩ := exists_succ (length_stringify_pos _) hfuel
      rw [stringify, parseValue_quote]
  | .arr [], fuel, rest, _, hfuel, _ => by
      obtain ⟨fuel, rfl⟩ := exists_succ (length_stringify_pos _) hfuel
      simp [stringify, parseValue, skipSpace]
  | .arr (x :: xs), fuel, rest, hj, hfuel, _ => by
      obtain ⟨fuel, rfl⟩ := exists_succ (length_stringify_pos _) hfuel
      obtain ⟨hx, hxs⟩ := hj
      rw [stringify] at hfuel ⊢
      simp only [List.length_cons, List.length_append] at hfuel
      have hread := parseValue_stringify x fuel
        (stringifyElements xs ++ rest) hx (by omega)
        (delimited_stringifyElements xs rest)
      obtain ⟨c, cs, hcs, hc⟩ := exists_opens x
      rw [List.cons_append, List.append_assoc]
      rw [hcs, List.cons_append] at hread ⊢
      exact parseValue_array hc fuel hread
        (parseElements_stringify xs fuel rest hxs (by omega))
  | .obj [], fuel, rest, _, hfuel, _ => by
      obtain ⟨fuel, rfl⟩ := exists_succ (length_stringify_pos _) hfuel
      simp [stringify, parseValue, skipSpace]
  | .obj ((k, v) :: ms), fuel, rest, hj, hfuel, _ => by
      obtain ⟨fuel, rfl⟩ := exists_succ (length_stringify_pos _) hfuel
      obtain ⟨hkeys, hv, hms⟩ := hj
      rw [stringify] at hfuel ⊢
      simp only [List.length_cons, List.length_append] at hfuel
      obtain ⟨inner, rfl⟩ : ∃ n, fuel = n + 1 := ⟨fuel - 1, by omega⟩
      have hread := parseValue_stringify v inner
        (stringifyMembers ms ++ rest) hv (by omega)
        (delimited_stringifyMembers ms rest)
      have hmembers := parseMembers_stringify ms (inner + 1) rest hms (by omega)
      have hobject := parseValue_object k (inner + 1)
        (parseMember_quote k inner hread) hmembers
      rw [ofMembers_of_nodup hkeys] at hobject
      simpa using hobject

theorem parseElements_stringify : ∀ (xs : List Json) (fuel : ℕ)
    (rest : List Char), DistinctElements xs →
      (stringifyElements xs).length ≤ fuel →
        parseElements fuel (stringifyElements xs ++ rest) = some (xs, rest)
  | [], fuel, rest, _, hfuel => by
      obtain ⟨fuel, rfl⟩ := exists_succ (Nat.succ_pos _) hfuel
      simp [stringifyElements, parseElements, skipSpace]
  | x :: xs, fuel, rest, hxs, hfuel => by
      obtain ⟨hx, hxs⟩ := hxs
      rw [stringifyElements] at hfuel ⊢
      simp only [List.length_cons, List.length_append] at hfuel
      obtain ⟨fuel, rfl⟩ : ∃ n, fuel = n + 1 := ⟨fuel - 1, by omega⟩
      have hread := parseValue_stringify x fuel
        (stringifyElements xs ++ rest) hx (by omega)
        (delimited_stringifyElements xs rest)
      have helements := parseElements_stringify xs fuel rest hxs (by omega)
      rw [List.cons_append, List.append_assoc, parseElements,
        skipSpace_of_opens (by decide)]
      simp only [hread, helements]

theorem parseMembers_stringify : ∀ (ms : List (JsString × Json)) (fuel : ℕ)
    (rest : List Char), DistinctMembers ms →
      (stringifyMembers ms).length ≤ fuel →
        parseMembers fuel (stringifyMembers ms ++ rest) = some (ms, rest)
  | [], fuel, rest, _, hfuel => by
      obtain ⟨fuel, rfl⟩ := exists_succ (Nat.succ_pos _) hfuel
      simp [stringifyMembers, parseMembers, skipSpace]
  | (k, v) :: ms, fuel, rest, hms, hfuel => by
      obtain ⟨hv, hms⟩ := hms
      rw [stringifyMembers] at hfuel ⊢
      simp only [List.length_cons, List.length_append] at hfuel
      obtain ⟨inner, rfl⟩ : ∃ n, fuel = n + 1 + 1 := ⟨fuel - 2, by omega⟩
      have hread := parseValue_stringify v inner
        (stringifyMembers ms ++ rest) hv (by omega)
        (delimited_stringifyMembers ms rest)
      have hmember := parseMember_quote k inner hread
      have hmembers := parseMembers_stringify ms (inner + 1) rest hms (by omega)
      rw [List.cons_append, List.append_assoc, List.cons_append,
        List.append_assoc, parseMembers, skipSpace_of_opens (by decide)]
      simp only [hmember, hmembers]

end

/-- A value without repeated member names is read back from its text. -/
theorem parse_stringify {j : Json} (h : Distinct j) :
    parse (stringify j) = some j := by
  have hread := parseValue_stringify j (stringify j).length [] h le_rfl
    (Or.inl rfl)
  rw [List.append_nil] at hread
  rw [parse, hread]
  rfl

end Json

end Collabswarm
