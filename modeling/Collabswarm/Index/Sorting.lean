import Collabswarm.Index.IndexStorage
import Collabswarm.Support.Comparison

/-!
# Sorted queries

`_compareEntries`, which both storages have in common, and the sorted query of
the memory storage.  Numbers, booleans and strings are compared among their own
kind, values of different kinds by their texts, and `undefined` and `null` come
before everything, each of them also before the other.

The comparison is a total preorder on records exactly if no date among the
values is invalid, `undefined` and `null` do not meet, and no value has a text
between the texts of two numbers or booleans that are ordered the other way
round.
-/

namespace Collabswarm.Index

open Comparison

/-! ## Comparing values -/

/-- The conversions and the collation that sorting uses. -/
structure SortConversions extends Conversions where
  numberToString : JsNumber → JsString
  localeCompare : JsString → JsString → Ordering
  localeCompare_swap : ∀ s t, localeCompare t s = (localeCompare s t).swap
  localeCompare_trans : ∀ s t u, localeCompare s t ≠ .gt →
    localeCompare t u ≠ .gt → localeCompare s u ≠ .gt

/-- The sign of the difference of two numbers. -/
def JsNumber.compareDifference : JsNumber → JsNumber → Option Ordering
  | .finite p, .finite q => some (compare p q)
  | .negInfinity, .finite _ => some .lt
  | .negInfinity, .posInfinity => some .lt
  | .finite _, .posInfinity => some .lt
  | .posInfinity, .finite _ => some .gt
  | .posInfinity, .negInfinity => some .gt
  | .finite _, .negInfinity => some .gt
  | _, _ => none

namespace SortConversions

variable (c : SortConversions)

/-- `String(value)`; `none` where it throws. -/
def toText : Value → Option JsString
  | .undefined => some (JsString.ofString "undefined")
  | .null => some (JsString.ofString "null")
  | .bool true => some (JsString.ofString "true")
  | .bool false => some (JsString.ofString "false")
  | .num x => some (c.numberToString x)
  | .str s => some s
  | v => c.objectToString v

/-- `String(a).localeCompare(String(b))`. -/
def compareTexts : Comparison Value := fun a b => do
  let s ← c.toText a
  let t ← c.toText b
  return c.localeCompare s t

/-- `_compareValues` after the normalization; `none` where the result is `NaN`
or the conversion to a string throws. -/
def compareNormalizedValues : Comparison Value := fun na nb =>
  if na.strictEq nb then some .eq
  else if Conversions.isNullish na then some .lt
  else if Conversions.isNullish nb then some .gt
  else
    match na, nb with
    | .num x, .num y => x.compareDifference y
    | .str s, .str t => some (c.localeCompare s t)
    | .bool b, .bool b' => some (compare b.toNat b'.toNat)
    | na, nb => c.compareTexts na nb

/-- `_compareValues`. -/
def compareValues : Comparison Value := fun a b =>
  c.compareNormalizedValues (c.normalizeForComparison a)
    (c.normalizeForComparison b)

end SortConversions

/-- `SortClause`. -/
structure SortClause where
  path : JsString
  descending : Bool

/-- `_compareEntries`. -/
def compareEntries (c : SortConversions) : List SortClause → Comparison Fields
  | [], _, _ => some .eq
  | clause :: sort, a, b =>
      let comparison := c.compareValues (resolveFieldPath a clause.path)
        (resolveFieldPath b clause.path)
      if comparison ≠ some .eq then
        if clause.descending then comparison.map Ordering.swap else comparison
      else compareEntries c sort a b

/-- Why a query throws: a `RangeError`, or a comparison that cannot convert a
value. -/
inductive QueryError where
  | range (message : String)
  | conversion
  deriving DecidableEq

/-- `MemoryIndexStorage.query`; `none` in place of a store that does not
exist. -/
def sortedQuery (c : SortConversions)
    (store : Option (InsertionMap JsString Fields))
    (filters : List FieldFilter) (sort : List SortClause)
    (limit offset : Option ℤ) : Except QueryError (List Entry) :=
  match store with
  | none => .ok []
  | some records =>
      match offset.filter (· < 0), limit.filter (· < 0) with
      | some offset, _ =>
          .error (.range s!"offset must be non-negative, got {offset}")
      | none, some limit =>
          .error (.range s!"limit must be non-negative, got {limit}")
      | none, none =>
          match memoryQuery c.toConversions records filters with
          | none => .error .conversion
          | some results =>
              let results := Comparison.sort
                (fun a b => compareEntries c sort a.2 b.2) results
              let results := results.drop (offset.getD 0).toNat
              .ok (match limit with
                | some limit => results.take limit.toNat
                | none => results)

/-! ## Values of one kind -/

/-- The types that are compared among themselves. -/
inductive ValueKind where
  | number
  | string
  | boolean
  | other
  deriving DecidableEq

/-- The type of a normalized value. -/
def kindOf : Value → ValueKind
  | .num _ => .number
  | .str _ => .string
  | .bool _ => .boolean
  | _ => .other

/-- A number or boolean that is less than another of its type. -/
def NativeLess : Value → Value → Prop
  | .num x, .num y => x.compareDifference y = some .lt
  | .bool b, .bool b' => b = false ∧ b' = true
  | _, _ => False

/-- Where a number stands in the order of all numbers. -/
def JsNumber.position : JsNumber → WithBot (WithTop ℚ)
  | .finite q => ((q : WithTop ℚ) : WithBot (WithTop ℚ))
  | .posInfinity => ((⊤ : WithTop ℚ) : WithBot (WithTop ℚ))
  | _ => ⊥

/-- Two different numbers are compared as their places. -/
theorem JsNumber.compareDifference_eq {x y : JsNumber} (hx : x ≠ .nan)
    (hy : y ≠ .nan) (hne : x ≠ y) :
    x.compareDifference y = some (compare x.position y.position) := by
  have htop : ∀ q : ℚ, (JsNumber.finite q).position < posInfinity.position :=
    fun q => WithBot.coe_lt_coe.2 (WithTop.coe_lt_top q)
  have hbot : ∀ q : ℚ, negInfinity.position < (JsNumber.finite q).position :=
    fun q => WithBot.bot_lt_coe _
  have hall : negInfinity.position < posInfinity.position :=
    WithBot.bot_lt_coe _
  cases x with
  | nan => exact absurd rfl hx
  | finite p =>
      cases y with
      | nan => exact absurd rfl hy
      | finite q =>
          simp [compareDifference, position, compare, compareOfLessAndEq]
      | posInfinity => rw [compare_lt_iff_lt.2 (htop p), compareDifference]
      | negInfinity => rw [compare_gt_iff_gt.2 (hbot p), compareDifference]
  | posInfinity =>
      cases y with
      | nan => exact absurd rfl hy
      | posInfinity => exact absurd rfl hne
      | finite q => rw [compare_gt_iff_gt.2 (htop q), compareDifference]
      | negInfinity => rw [compare_gt_iff_gt.2 hall, compareDifference]
  | negInfinity =>
      cases y with
      | nan => exact absurd rfl hy
      | negInfinity => exact absurd rfl hne
      | finite q => rw [compare_lt_iff_lt.2 (hbot q), compareDifference]
      | posInfinity => rw [compare_lt_iff_lt.2 hall, compareDifference]

theorem JsNumber.position_inj {x y : JsNumber} (hx : x ≠ .nan) (hy : y ≠ .nan)
    (h : x.position = y.position) : x = y := by
  cases x <;> cases y <;> simp_all [position]

namespace SortConversions

variable (c : SortConversions)

/-- The comparison of values of one type. -/
def native : Comparison Value := fun na nb =>
  if na.strictEq nb then some .eq
  else
    match na, nb with
    | .num x, .num y => x.compareDifference y
    | .str s, .str t => some (c.localeCompare s t)
    | .bool b, .bool b' => some (compare b.toNat b'.toNat)
    | _, _ => none

/-- A primitive value that is neither missing nor `NaN`. -/
structure Present (v : Value) : Prop where
  primitive : v.isObject = false
  present : Conversions.isNullish v = false
  number : v ≠ .num .nan

theorem compareNormalizedValues_missing {a b : Value}
    (ha : Conversions.isNullish a = true) (hb : Conversions.isNullish b = false) :
    c.compareNormalizedValues a b = some .lt ∧
      c.compareNormalizedValues b a = some .gt := by
  cases a <;> cases ha <;> cases b <;> cases hb <;>
    simp [compareNormalizedValues, Value.strictEq, Value.primitiveEq,
      Value.identical, Value.isObject, Conversions.isNullish]

theorem Present.cases {v : Value} (h : Present v) :
    (∃ x, x ≠ .nan ∧ v = .num x) ∨ (∃ s, v = .str s) ∨ ∃ b, v = .bool b := by
  obtain ⟨hprimitive, hpresent, hnumber⟩ := h
  cases v with
  | num x => exact Or.inl ⟨x, fun hx => hnumber (hx ▸ rfl), rfl⟩
  | str s => exact Or.inr (Or.inl ⟨s, rfl⟩)
  | bool b => exact Or.inr (Or.inr ⟨b, rfl⟩)
  | undefined => cases hpresent
  | null => cases hpresent
  | date ref time => cases hprimitive
  | arr ref elements => cases hprimitive
  | obj ref members => cases hprimitive

theorem compareNormalizedValues_present {a b : Value} (ha : Present a)
    (hb : Present b) :
    c.compareNormalizedValues a b =
      mixed kindOf c.native c.compareTexts a b := by
  rcases ha.cases with ⟨x, -, rfl⟩ | ⟨s, rfl⟩ | ⟨p, rfl⟩
  all_goals rcases hb.cases with ⟨y, -, rfl⟩ | ⟨t, rfl⟩ | ⟨q, rfl⟩
  all_goals rfl

theorem native_self {v : Value} (hv : Present v) :
    c.native v v = some .eq := by
  rcases hv.cases with ⟨x, hx, rfl⟩ | ⟨s, rfl⟩ | ⟨b, rfl⟩
  · simp [native, Value.strictEq, Value.primitiveEq, hx]
  · simp [native, Value.strictEq, Value.primitiveEq]
  · simp [native, Value.strictEq, Value.primitiveEq]

theorem native_num {x y : JsNumber} (hx : x ≠ .nan) (hy : y ≠ .nan) :
    c.native (.num x) (.num y) = some (compare x.position y.position) := by
  by_cases hne : x = y
  · subst hne
    rw [compare_eq_iff_eq.2 rfl]
    exact c.native_self ⟨rfl, rfl, fun h => hx (Value.num.inj h)⟩
  · rw [← JsNumber.compareDifference_eq hx hy hne]
    simp [native, Value.strictEq, Value.primitiveEq, Value.identical,
      Value.isObject, hne]

theorem localeCompare_self (s : JsString) : c.localeCompare s s = .eq := by
  have h := c.localeCompare_swap s s
  cases heq : c.localeCompare s s with
  | eq => rfl
  | lt => rw [heq] at h; cases h
  | gt => rw [heq] at h; cases h

theorem native_str (s t : JsString) :
    c.native (.str s) (.str t) = some (c.localeCompare s t) := by
  by_cases hne : s = t
  · subst hne
    rw [localeCompare_self]
    exact c.native_self ⟨rfl, rfl, fun h => by cases h⟩
  · simp [native, Value.strictEq, Value.primitiveEq, Value.identical,
      Value.isObject, hne]

theorem native_bool (b b' : Bool) :
    c.native (.bool b) (.bool b') = some (compare b.toNat b'.toNat) := by
  cases b <;> cases b' <;> rfl

/-- The collation is a total preorder. -/
theorem totalPreorderOn_localeCompare (S : JsString → Prop) :
    TotalPreorderOn (fun s t => some (c.localeCompare s t)) S := by
  have hle : ∀ s t, Le (fun s t => some (c.localeCompare s t)) s t ↔
      c.localeCompare s t ≠ .gt := by
    intro s t
    rw [Le, Option.some.injEq, Option.some.injEq]
    cases c.localeCompare s t <;> simp
  refine ⟨fun s t _ _ => ⟨_, rfl, congrArg some (c.localeCompare_swap s t)⟩,
    fun s t u _ _ _ hst htu => ?_⟩
  rw [hle] at hst htu ⊢
  exact c.localeCompare_trans s t u hst htu

/-- The text of a present value. -/
def textOf (v : Value) : JsString := (c.toText v).getD []

theorem compareTexts_present {a b : Value} (ha : Present a) (hb : Present b) :
    c.compareTexts a b = some (c.localeCompare (c.textOf a) (c.textOf b)) := by
  have htext : ∀ v, Present v → c.toText v = some (c.textOf v) := by
    intro v hv
    rcases hv.cases with ⟨x, -, rfl⟩ | ⟨s, rfl⟩ | ⟨b, rfl⟩
    · rfl
    · rfl
    · cases b <;> rfl
  rw [compareTexts, htext a ha, htext b hb]
  rfl

/-- The number, string or truth value of a value of that type. -/
def numberOf : Value → JsNumber
  | .num x => x
  | _ => .nan

def stringOf : Value → JsString
  | .str s => s
  | _ => []

def truthOf : Value → ℕ
  | .bool b => b.toNat
  | _ => 0

theorem totalPreorderOn_native {S : Value → Prop}
    (hS : ∀ v, S v → Present v) (k : ValueKind) :
    TotalPreorderOn c.native fun v => S v ∧ kindOf v = k := by
  cases k with
  | number =>
      refine (TotalPreorderOn.of_compare (fun v => (numberOf v).position)
        _).congr fun a b ha hb => ?_
      rcases (hS a ha.1).cases with ⟨x, hx, rfl⟩ | ⟨s, rfl⟩ | ⟨p, rfl⟩
      · rcases (hS b hb.1).cases with ⟨y, hy, rfl⟩ | ⟨t, rfl⟩ | ⟨q, rfl⟩
        · exact c.native_num hx hy
        · cases hb.2
        · cases hb.2
      · cases ha.2
      · cases ha.2
  | string =>
      refine ((c.totalPreorderOn_localeCompare fun _ => True).comap
        (f := stringOf) fun _ _ => trivial).congr fun a b ha hb => ?_
      rcases (hS a ha.1).cases with ⟨x, -, rfl⟩ | ⟨s, rfl⟩ | ⟨p, rfl⟩
      · cases ha.2
      · rcases (hS b hb.1).cases with ⟨y, -, rfl⟩ | ⟨t, rfl⟩ | ⟨q, rfl⟩
        · cases hb.2
        · exact c.native_str s t
        · cases hb.2
      · cases ha.2
  | boolean =>
      refine (TotalPreorderOn.of_compare truthOf _).congr fun a b ha hb => ?_
      rcases (hS a ha.1).cases with ⟨x, -, rfl⟩ | ⟨s, rfl⟩ | ⟨p, rfl⟩
      · cases ha.2
      · cases ha.2
      · rcases (hS b hb.1).cases with ⟨y, -, rfl⟩ | ⟨t, rfl⟩ | ⟨q, rfl⟩
        · cases hb.2
        · cases hb.2
        · exact c.native_bool p q
  | other =>
      refine (TotalPreorderOn.all_eq _).congr fun a _ ha _ => ?_
      rcases (hS a ha.1).cases with ⟨x, -, rfl⟩ | ⟨s, rfl⟩ | ⟨p, rfl⟩
      · cases ha.2
      · cases ha.2
      · cases ha.2

theorem mixedOrders {S : Value → Prop} (hS : ∀ v, S v → Present v) :
    MixedOrders kindOf c.native c.compareTexts S := by
  have htexts : TotalPreorderOn c.compareTexts S := by
    have h := (c.totalPreorderOn_localeCompare fun _ => True).comap
      (T := S) (f := c.textOf) fun _ _ => trivial
    exact h.congr fun a b ha hb => c.compareTexts_present (hS a ha) (hS b hb)
  refine ⟨c.totalPreorderOn_native hS, htexts, fun a b ha hb hkind heq => ?_⟩
  rcases (hS a ha).cases with ⟨x, hx, rfl⟩ | ⟨s, rfl⟩ | ⟨p, rfl⟩
  · rcases (hS b hb).cases with ⟨y, hy, rfl⟩ | ⟨t, rfl⟩ | ⟨q, rfl⟩
    · rw [c.native_num hx hy, Option.some.injEq, compare_eq_iff_eq] at heq
      rw [JsNumber.position_inj hx hy heq]
      exact htexts.refl hb
    · cases hkind
    · cases hkind
  · rcases (hS b hb).cases with ⟨y, -, rfl⟩ | ⟨t, rfl⟩ | ⟨q, rfl⟩
    · cases hkind
    · rw [c.native_str] at heq
      exact heq
    · cases hkind
  · rcases (hS b hb).cases with ⟨y, -, rfl⟩ | ⟨t, rfl⟩ | ⟨q, rfl⟩
    · cases hkind
    · cases hkind
    · rw [c.native_bool, Option.some.injEq, compare_eq_iff_eq] at heq
      have hpq : p = q := by
        revert heq
        cases p <;> cases q <;> simp
      rw [hpq]
      exact htexts.refl hb

/-! ## The comparison of values -/

/-- What the normalized values at a path have to be. -/
structure Orderable (V : Value → Prop) : Prop where
  noNaN : ¬ V (.num .nan)
  oneMissing : ¬ (V .undefined ∧ V .null)
  aligned : ∀ p q x, V p → V q → V x → NativeLess p q →
    Conversions.isNullish x = false → kindOf x ≠ kindOf p →
    ¬ (Le c.compareTexts q x ∧ Le c.compareTexts x p)

/-- The values that are not missing. -/
def Occurs (V : Value → Prop) (v : Value) : Prop :=
  V v ∧ Conversions.isNullish v = false

variable {V : Value → Prop}

theorem present_of_occurs (hV : ∀ v, V v → v.isObject = false)
    (hnan : ¬ V (.num .nan)) : ∀ v, Occurs V v → Present v :=
  fun v hv => ⟨hV v hv.1, hv.2, fun h => hnan (h ▸ hv.1)⟩

theorem nativeLess_iff {p q : Value} (hp : Present p) (hq : Present q) :
    NativeLess p q ↔
      kindOf p = kindOf q ∧ kindOf p ≠ .string ∧ c.native p q = some .lt := by
  rcases hp.cases with ⟨x, hx, rfl⟩ | ⟨s, rfl⟩ | ⟨b, rfl⟩
  · rcases hq.cases with ⟨y, hy, rfl⟩ | ⟨t, rfl⟩ | ⟨b', rfl⟩
    · rw [c.native_num hx hy]
      have hless : NativeLess (.num x) (.num y) ↔
          some (compare x.position y.position) = some .lt := by
        by_cases hne : x = y
        · subst hne
          rw [compare_eq_iff_eq.2 rfl]
          cases x <;> simp [NativeLess, JsNumber.compareDifference]
        · rw [NativeLess, JsNumber.compareDifference_eq hx hy hne]
      simp [hless, kindOf]
    · simp [NativeLess, kindOf]
    · simp [NativeLess, kindOf]
  · rcases hq.cases with ⟨y, -, rfl⟩ | ⟨t, rfl⟩ | ⟨b', rfl⟩
    all_goals simp [NativeLess, kindOf]
  · rcases hq.cases with ⟨y, -, rfl⟩ | ⟨t, rfl⟩ | ⟨b', rfl⟩
    · simp [NativeLess, kindOf]
    · simp [NativeLess, kindOf]
    · rw [c.native_bool]
      cases b <;> cases b' <;> simp [NativeLess, kindOf, compare_lt_iff_lt]

theorem present_of_nativeLess {p q : Value} (hp : p.isObject = false)
    (hq : q.isObject = false) (hpnan : p ≠ .num .nan) (hqnan : q ≠ .num .nan)
    (h : NativeLess p q) : Present p ∧ Present q := by
  cases p with
  | num x =>
      cases q with
      | num y => exact ⟨⟨hp, rfl, hpnan⟩, ⟨hq, rfl, hqnan⟩⟩
      | _ => cases h
  | bool b =>
      cases q with
      | bool b' => exact ⟨⟨hp, rfl, hpnan⟩, ⟨hq, rfl, hqnan⟩⟩
      | _ => cases h
  | _ => cases h

/-- Strings are always in line with the texts of other values. -/
theorem aligned_iff (hV : ∀ v, V v → v.isObject = false)
    (hnan : ¬ V (.num .nan)) :
    Aligned kindOf c.native c.compareTexts (Occurs V) ↔
      ∀ p q x, V p → V q → V x → NativeLess p q →
        Conversions.isNullish x = false → kindOf x ≠ kindOf p →
        ¬ (Le c.compareTexts q x ∧ Le c.compareTexts x p) := by
  have hpresent := present_of_occurs hV hnan
  have hnumber : ∀ v, V v → v ≠ .num .nan := fun v hv h => hnan (h ▸ hv)
  constructor
  · intro h p q x hp hq hx hless hmissing hkind
    obtain ⟨hpp, hpq⟩ := present_of_nativeLess (hV p hp) (hV q hq)
      (hnumber p hp) (hnumber q hq) hless
    obtain ⟨hsame, -, hlt⟩ := (c.nativeLess_iff hpp hpq).1 hless
    exact h p q x ⟨hp, hpp.present⟩ ⟨hq, hpq.present⟩ ⟨hx, hmissing⟩ hsame hkind
      hlt
  · intro h p q x hp hq hx hsame hkind hlt
    by_cases hstring : kindOf p = .string
    · rintro ⟨hqx, hxp⟩
      have horders := c.mixedOrders hpresent
      have hle := horders.across.trans q x p hq hx hp hqx hxp
      have htext : c.compareTexts p q = c.native p q := by
        rcases (hpresent p hp).cases with ⟨y, -, rfl⟩ | ⟨s, rfl⟩ | ⟨b, rfl⟩
        · cases hstring
        · rcases (hpresent q hq).cases with ⟨y, -, rfl⟩ | ⟨t, rfl⟩ | ⟨b, rfl⟩
          · cases hsame
          · rw [c.native_str]
            rfl
          · cases hsame
        · cases hstring
      exact (horders.across.lt_iff hp hq).1 (htext.trans hlt) hle
    · exact h p q x hp.1 hq.1 hx.1
        ((c.nativeLess_iff (hpresent p hp) (hpresent q hq)).2
          ⟨hsame, hstring, hlt⟩) hx.2 hkind

theorem missing_cases {v : Value} (hv : Conversions.isNullish v = true) :
    v = .undefined ∨ v = .null := by
  cases v with
  | undefined => exact Or.inl rfl
  | null => exact Or.inr rfl
  | _ => cases hv

theorem compareNormalizedValues_self_missing {v : Value}
    (hv : Conversions.isNullish v = true) :
    c.compareNormalizedValues v v = some .eq := by
  rcases missing_cases hv with rfl | rfl
  · rfl
  · rfl

theorem Orderable.missing_eq (h : c.Orderable V) {a b : Value} (ha : V a)
    (hb : V b) (hma : Conversions.isNullish a = true)
    (hmb : Conversions.isNullish b = true) : a = b := by
  rcases missing_cases hma with rfl | rfl
  · rcases missing_cases hmb with rfl | rfl
    · rfl
    · exact absurd ⟨ha, hb⟩ h.oneMissing
  · rcases missing_cases hmb with rfl | rfl
    · exact absurd ⟨hb, ha⟩ h.oneMissing
    · rfl

/-- Values are compared by a total preorder exactly if they are orderable. -/
theorem totalPreorderOn_values_iff (hV : ∀ v, V v → v.isObject = false) :
    TotalPreorderOn c.compareNormalizedValues V ↔ c.Orderable V := by
  constructor
  · intro h
    have hnan : ¬ V (.num .nan) := by
      intro hv
      exact absurd (h.refl hv) (by
        simp [compareNormalizedValues, Value.strictEq, Value.primitiveEq,
          Value.identical, Value.isObject, Conversions.isNullish,
          JsNumber.compareDifference])
    have hpresent := present_of_occurs hV hnan
    refine ⟨hnan, ?_, ?_⟩
    · rintro ⟨hundefined, hnull⟩
      obtain ⟨o, ho, hswap⟩ := h.opposite _ _ hundefined hnull
      obtain rfl : Ordering.lt = o := Option.some.inj ho
      exact absurd (Option.some.inj hswap) (by decide)
    · rw [← c.aligned_iff hV hnan]
      refine aligned_of_totalPreorderOn ((h.mono fun v hv => hv.1).congr ?_)
      exact fun a b ha hb => (c.compareNormalizedValues_present
        (hpresent a ha) (hpresent b hb)).symm
  · intro h
    have hpresent := present_of_occurs hV h.noNaN
    have hmixed : TotalPreorderOn c.compareNormalizedValues (Occurs V) :=
      ((c.mixedOrders hpresent).totalPreorderOn
        ((c.aligned_iff hV h.noNaN).2 h.aligned)).congr fun a b ha hb =>
          c.compareNormalizedValues_present (hpresent a ha) (hpresent b hb)
    refine ⟨fun a b ha hb => ?_, fun a b d ha hb hd hab hbd => ?_⟩
    · cases hma : Conversions.isNullish a with
      | true =>
          cases hmb : Conversions.isNullish b with
          | true =>
              obtain rfl := h.missing_eq c ha hb hma hmb
              have hself := c.compareNormalizedValues_self_missing hma
              exact ⟨.eq, hself, hself⟩
          | false =>
              obtain ⟨hlt, hgt⟩ := c.compareNormalizedValues_missing hma hmb
              exact ⟨.lt, hlt, hgt⟩
      | false =>
          cases hmb : Conversions.isNullish b with
          | true =>
              obtain ⟨hlt, hgt⟩ := c.compareNormalizedValues_missing hmb hma
              exact ⟨.gt, hgt, hlt⟩
          | false => exact hmixed.opposite a b ⟨ha, hma⟩ ⟨hb, hmb⟩
    · have hafter : ∀ u w, Le c.compareNormalizedValues u w →
          Conversions.isNullish u = false → Conversions.isNullish w = false := by
        intro u w hle hmu
        by_contra hmw
        rw [Bool.not_eq_false] at hmw
        rw [Le, (c.compareNormalizedValues_missing hmw hmu).2] at hle
        simp at hle
      cases hma : Conversions.isNullish a with
      | true =>
          cases hmd : Conversions.isNullish d with
          | true =>
              obtain rfl := h.missing_eq c ha hd hma hmd
              exact Or.inr (c.compareNormalizedValues_self_missing hma)
          | false =>
              exact Or.inl (c.compareNormalizedValues_missing hma hmd).1
      | false =>
          have hmb := hafter a b hab hma
          have hmd := hafter b d hbd hmb
          exact hmixed.trans a b d ⟨ha, hma⟩ ⟨hb, hmb⟩ ⟨hd, hmd⟩ hab hbd

end SortConversions

/-! ## The comparison of records -/

section Records

variable (c : SortConversions) (P : JsString → Prop) (R : Fields → Prop)

/-- The normalized values of some records at a path. -/
def valuesAt (path : JsString) (v : Value) : Prop :=
  ∃ f, R f ∧ v = c.normalizeForComparison (resolveFieldPath f path)

/-- The records have no arrays or plain objects at the paths. -/
def Flat : Prop :=
  ∀ f path, R f → P path →
    (c.normalizeForComparison (resolveFieldPath f path)).isObject = false

variable {P R}

theorem compareEntries_cons (clause : SortClause) (sort : List SortClause) :
    compareEntries c (clause :: sort) =
      thenBy
        (fun a b =>
          let comparison := c.compareValues (resolveFieldPath a clause.path)
            (resolveFieldPath b clause.path)
          if clause.descending then comparison.map Ordering.swap
          else comparison)
        (compareEntries c sort) := by
  funext a b
  rw [compareEntries, thenBy]
  rcases c.compareValues (resolveFieldPath a clause.path)
    (resolveFieldPath b clause.path) with _ | o
  · cases clause.descending <;> simp
  · cases clause.descending <;> cases o <;> simp

theorem totalPreorderOn_path_iff {path : JsString}
    (hflat : Flat c P R) (hpath : P path) :
    TotalPreorderOn (fun a b => c.compareValues (resolveFieldPath a path)
      (resolveFieldPath b path)) R ↔ c.Orderable (valuesAt c R path) := by
  have hV : ∀ v, valuesAt c R path v → v.isObject = false := by
    rintro v ⟨f, hf, rfl⟩
    exact hflat f path hf hpath
  rw [← c.totalPreorderOn_values_iff hV]
  exact (TotalPreorderOn.image_iff (T := R)
    (f := fun f => c.normalizeForComparison (resolveFieldPath f path))).symm

theorem totalPreorderOn_entries_iff (hflat : Flat c P R) :
    (∀ sort : List SortClause, (∀ clause ∈ sort, P clause.path) →
      TotalPreorderOn (compareEntries c sort) R) ↔
    ∀ path, P path → c.Orderable (valuesAt c R path) := by
  constructor
  · intro h path hpath
    rw [← totalPreorderOn_path_iff c hflat hpath]
    refine (h [⟨path, false⟩] (by simpa using hpath)).congr fun a b _ _ => ?_
    rw [compareEntries_cons]
    simp [thenBy, compareEntries]
  · intro h sort
    induction sort with
    | nil =>
        intro _
        exact TotalPreorderOn.all_eq R
    | cons clause sort ih =>
        intro hsort
        have hpath := hsort clause List.mem_cons_self
        have hvalues := (totalPreorderOn_path_iff c hflat hpath).2
          (h clause.path hpath)
        rw [compareEntries_cons]
        refine TotalPreorderOn.thenBy ?_ (ih fun d hd =>
          hsort d (List.mem_cons_of_mem _ hd))
        cases clause.descending with
        | false => exact hvalues
        | true => exact hvalues.reverse

/-! ## The order of insertion -/

/-- The results of two queries agree up to entries that compare equal. -/
def SameUpToTies (sort : List SortClause) :
    Except QueryError (List Entry) → Except QueryError (List Entry) → Prop
  | .ok results, .ok results' =>
      List.Forall₂ (fun a b => compareEntries c sort a.2 b.2 = some .eq)
        results results'
  | .error e, .error e' => e = e'
  | _, _ => False

/-- Filtering two orders of the entries. -/
theorem collect_perm (verdict : Fields → Option Bool) {es es' : List Entry}
    (h : es.Perm es') :
    (collect verdict es = none ∧ collect verdict es' = none) ∨
      ∃ rs rs', collect verdict es = some rs ∧ collect verdict es' = some rs' ∧
        rs.Perm rs' ∧ ∀ r ∈ rs, r ∈ es := by
  cases hes : collect verdict es with
  | none =>
      refine Or.inl ⟨rfl, ?_⟩
      cases hes' : collect verdict es' with
      | none => rfl
      | some rs' =>
          have hall := (collect_eq_some_iff.1 hes').1
          have hsome := collect_eq_some_iff.2
            ⟨fun e he => hall e (h.mem_iff.1 he), rfl⟩
          cases hes.symm.trans hsome
  | some rs =>
      obtain ⟨hall, rfl⟩ := collect_eq_some_iff.1 hes
      have hes' := collect_eq_some_iff.2
        ⟨fun e he => hall e (h.mem_iff.2 he), rfl⟩
      exact Or.inr ⟨_, _, rfl, hes', h.filter _,
        fun r hr => List.mem_of_mem_filter hr⟩

/-- Where the comparison is a total preorder, the result does not depend on the
order of the records. -/
theorem sortedQuery_sameUpToTies {sort : List SortClause}
    (h : TotalPreorderOn (compareEntries c sort) R)
    {records records' : InsertionMap JsString Fields}
    (hperm : records.entries.Perm records'.entries)
    (hR : ∀ e ∈ records.entries, R e.2) (filters : List FieldFilter)
    (limit offset : Option ℤ) :
    SameUpToTies c sort (sortedQuery c (some records) filters sort limit offset)
      (sortedQuery c (some records') filters sort limit offset) := by
  rw [sortedQuery, sortedQuery]
  dsimp only
  split
  · rfl
  · rfl
  · rcases collect_perm (matchesFilters c.toConversions Value.strictEq · filters)
      hperm with ⟨hnone, hnone'⟩ | ⟨rs, rs', hsome, hsome', hrs, hmem⟩
    · rw [memoryQuery, memoryQuery, hnone, hnone']
      rfl
    · rw [memoryQuery, memoryQuery, hsome, hsome']
      have hentries : TotalPreorderOn
          (fun a b : Entry => compareEntries c sort a.2 b.2) fun e => R e.2 :=
        h.comap fun e he => he
      have hsorted := forall₂_sort hentries (fun r hr => hR r (hmem r hr)) hrs
      have hdrop := List.forall₂_drop (offset.getD 0).toNat hsorted
      cases limit with
      | none => exact hdrop
      | some limit => exact List.forall₂_take limit.toNat hdrop

/-- Sorting by the paths is well defined on the records. -/
structure SortingWellDefined (P : JsString → Prop) (R : Fields → Prop) :
    Prop where
  preorder : ∀ sort : List SortClause, (∀ clause ∈ sort, P clause.path) →
    TotalPreorderOn (compareEntries c sort) R
  independent : ∀ sort : List SortClause, (∀ clause ∈ sort, P clause.path) →
    ∀ records records' : InsertionMap JsString Fields,
      records.entries.Perm records'.entries →
      (∀ e ∈ records.entries, R e.2) →
      ∀ filters limit offset,
        SameUpToTies c sort
          (sortedQuery c (some records) filters sort limit offset)
          (sortedQuery c (some records') filters sort limit offset)

/-- Sorting is well defined exactly if the values at every path are
orderable. -/
theorem sortingWellDefined_iff (hflat : Flat c P R) :
    SortingWellDefined c P R ↔
      ∀ path, P path → c.Orderable (valuesAt c R path) := by
  rw [← totalPreorderOn_entries_iff c hflat]
  constructor
  · exact SortingWellDefined.preorder
  · intro h
    exact ⟨h, fun sort hsort records records' hperm hR filters limit offset =>
      sortedQuery_sameUpToTies c (h sort hsort) hperm hR filters limit offset⟩

end Records

theorem cmp_ne_gt_iff (a b : List ℕ) : cmp a b ≠ .gt ↔ a ≤ b := by
  unfold cmp cmpUsing
  split_ifs with hlt hgt
  · simp [hlt.le]
  · simpa using hgt
  · simp [le_of_not_gt hgt]

/-- Conversions with the order of code units, natural numbers in decimal and no
dates in strings. -/
def plainConversions : SortConversions where
  parseDate _ := .nan
  stringToNumber _ := .nan
  objectToString _ := none
  numberToString
    | .finite q => JsString.ofChars (Nat.toDigits 10 q.num.toNat)
    | _ => []
  localeCompare s t := cmp (s.map UInt16.toNat) (t.map UInt16.toNat)
  localeCompare_swap s t :=
    (cmp_swap (s.map UInt16.toNat) (t.map UInt16.toNat)).symm
  localeCompare_trans := by
    intro s t u hst htu
    rw [cmp_ne_gt_iff] at hst htu ⊢
    exact hst.trans htu

/-- Records with a number each. -/
theorem sortingWellDefined_numbers :
    SortingWellDefined plainConversions (· = JsString.ofString "n")
        (fun f => ∃ q : ℚ, f = [(JsString.ofString "n", .num (.finite q))]) ↔
      ∀ path, path = JsString.ofString "n" →
        plainConversions.Orderable (valuesAt plainConversions
          (fun f => ∃ q : ℚ, f = [(JsString.ofString "n", .num (.finite q))])
          path) := by
  apply sortingWellDefined_iff
  rintro _ _ ⟨q, rfl⟩ rfl
  rfl

/-- A record without the field and one where it is `null` come before each
other, and `10 ≤ "5" ≤ 9` by the texts while `9 < 10` by the numbers. -/
theorem sortingWellDefined_fails :
    ¬ SortingWellDefined plainConversions (· = JsString.ofString "n")
        (fun f => f = [] ∨ f = [(JsString.ofString "n", .null)]) ∧
      ¬ SortingWellDefined plainConversions (· = JsString.ofString "n")
        (fun f => f = [(JsString.ofString "n", .num (.finite 9))] ∨
          f = [(JsString.ofString "n", .num (.finite 10))] ∨
          f = [(JsString.ofString "n", .str (JsString.ofString "5"))]) := by
  constructor
  · intro h
    have hsort := h.preorder [⟨JsString.ofString "n", false⟩] (by simp)
    obtain ⟨o, ho, hswap⟩ := hsort.opposite _ _ (Or.inl rfl) (Or.inr rfl)
    obtain rfl : Ordering.lt = o := Option.some.inj ho
    exact absurd (Option.some.inj hswap) (by decide)
  · intro h
    have hsort := h.preorder [⟨JsString.ofString "n", false⟩] (by simp)
    have hle := hsort.trans _ _ _ (Or.inr (Or.inl rfl)) (Or.inr (Or.inr rfl))
      (Or.inl rfl) (by decide +kernel) (by decide +kernel)
    exact absurd hle (by decide +kernel)

end Collabswarm.Index
