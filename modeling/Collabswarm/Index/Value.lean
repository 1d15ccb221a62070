import Mathlib.Data.List.Sort
import Collabswarm.Support.JsString

/-!
# Field values

The values that documents put into an index: primitive values, dates, arrays
and plain objects.  Objects have an identity, which strict equality compares.
Properties that objects inherit are left out.
-/

namespace Collabswarm.Index

/-- A number. -/
inductive JsNumber where
  | nan
  | negInfinity
  | finite (q : ℚ)
  | posInfinity
  deriving DecidableEq

/-- A value; `ref` identifies an object. -/
inductive Value where
  | undefined
  | null
  | bool (b : Bool)
  | num (x : JsNumber)
  | str (s : JsString)
  | date (ref : ℕ) (time : JsNumber)
  | arr (ref : ℕ) (elements : List Value)
  | obj (ref : ℕ) (members : List (JsString × Value))

namespace Value

/-- `typeof value === 'object'` of a value that is not `null`. -/
def isObject : Value → Bool
  | .date _ _ => true
  | .arr _ _ => true
  | .obj _ _ => true
  | _ => false

/-- The identity of an object. -/
def ref? : Value → Option ℕ
  | .date ref _ => some ref
  | .arr ref _ => some ref
  | .obj ref _ => some ref
  | _ => none

/-- `===` on primitive values; it is false on objects. -/
def primitiveEq : Value → Value → Bool
  | .undefined, .undefined => true
  | .null, .null => true
  | .bool b, .bool b' => b == b'
  | .num x, .num y => decide (x ≠ .nan ∧ x = y)
  | .str s, .str s' => decide (s = s')
  | _, _ => false

/-- Two values are the same object. -/
def identical (v w : Value) : Bool :=
  v.isObject && w.isObject && decide (v.ref? = w.ref?)

/-- `===`. -/
def strictEq (v w : Value) : Bool := v.primitiveEq w || v.identical w

/-- The name of an array index. -/
def indexName (i : ℕ) : JsString := JsString.ofChars (Nat.toDigits 10 i)

/-- The name of the length of an array. -/
def lengthName : JsString := JsString.ofString "length"

/-- The value of an own property, `undefined` where there is none. -/
def member : Value → JsString → Value
  | .arr _ elements, name =>
      if name = lengthName then .num (.finite elements.length)
      else
        match elements.zipIdx.find? (fun e => indexName e.2 = name) with
        | some e => e.1
        | none => .undefined
  | .obj _ members, name => (members.lookup name).getD .undefined
  | _, _ => .undefined

/-- The number of keys of an object, as `Object.keys` lists them. -/
def keyCount : Value → ℕ
  | .arr _ elements => elements.length
  | .obj _ members => members.length
  | _ => 0

mutual

/-- The value as data: without the identities of objects and with their members
sorted by name. -/
def data : Value → Value
  | .date _ time => .date 0 time
  | .arr _ elements => .arr 0 (dataElements elements)
  | .obj _ members =>
      .obj 0 ((dataMembers members).insertionSort fun a b => a.1 ≤ b.1)
  | v => v

/-- The elements as data. -/
def dataElements : List Value → List Value
  | [] => []
  | x :: xs => data x :: dataElements xs

/-- The members as data. -/
def dataMembers : List (JsString × Value) → List (JsString × Value)
  | [] => []
  | (name, x) :: ms => (name, data x) :: dataMembers ms

end

/-! ## Comparing records -/

/-- What the comparison of one property finds without looking into objects. -/
def settled (va vb : Value) : Option Bool :=
  if va.strictEq vb then some true
  else
    match va, vb with
    | .date _ t, .date _ t' => some (decide (t ≠ .nan ∧ t = t'))
    | va, vb => if va.isObject && vb.isObject then none else some false

mutual

/-- `_fieldsEqual`. -/
def fieldsEqual : Value → Value → Bool
  | .arr _ elements, b =>
      decide (elements.length = b.keyCount) && elementsEqual 0 elements b
  | .obj _ members, b =>
      decide (members.length = b.keyCount) && membersEqual members b
  | _, b => decide (0 = b.keyCount)

/-- The loop of `_fieldsEqual` over an array. -/
def elementsEqual (i : ℕ) : List Value → Value → Bool
  | [], _ => true
  | va :: rest, b =>
      let vb := b.member (indexName i)
      (match settled va vb with
        | some equal => equal
        | none => fieldsEqual va vb) && elementsEqual (i + 1) rest b

/-- The loop of `_fieldsEqual` over an object. -/
def membersEqual : List (JsString × Value) → Value → Bool
  | [], _ => true
  | (name, va) :: rest, b =>
      let vb := b.member name
      (match settled va vb with
        | some equal => equal
        | none => fieldsEqual va vb) && membersEqual rest b

end

end Value

end Collabswarm.Index
