import Collabswarm.Index.IndexedDb
import Collabswarm.Support.InsertionMap

/-!
# Queries of the two index storages

`MemoryIndexStorage` and `IDBIndexStorage` keep one record for each document
path and filter records in the same way, except that the database returns
structured clones and may walk an index instead of all records.  The results
agree unless an object is compared with itself, an ordering filter meets a
value that is no key, or a key path ends in the length of a string.
-/

namespace Collabswarm.Index

/-! ## Filters -/

/-- `FilterOperator`; `prefixed` and `inList` stand for `'prefix'` and
`'in'`. -/
inductive FilterOperator where
  | eq
  | neq
  | gt
  | gte
  | lt
  | lte
  | prefixed
  | inList
  | contains
deriving DecidableEq, Repr

structure FieldFilter where
  path : JsString
  operator : FilterOperator
  value : Value

/-- The fields of a record. -/
abbrev Fields := List (JsString × Value)

/-- The conversions of the language that comparisons use: `Date.parse`, of a
string to a number, and of an array or object to a string, which may throw. -/
structure Conversions where
  parseDate : JsString → JsNumber
  stringToNumber : JsString → JsNumber
  objectToString : Value → Option JsString

/-- `path.split('.')`. -/
def splitPath (path : JsString) : List JsString := path.splitOn 0x2E

/-- `_resolveFieldPath`. -/
def resolveFieldPath (fields : Fields) (path : JsString) : Value :=
  resolve (.obj 0 fields) (splitPath path)

/-- The string starts with code units that pass the tests. -/
def startsWithUnits : List (UInt16 → Bool) → JsString → Bool
  | [], _ => true
  | _ :: _, [] => false
  | test :: tests, u :: s => test u && startsWithUnits tests s

/-- `/^\d{4}-\d{2}-\d{2}/`. -/
def startsWithDate (s : JsString) : Bool :=
  let digit : UInt16 → Bool := fun u => 0x30 ≤ u && u ≤ 0x39
  let dash : UInt16 → Bool := fun u => u == 0x2D
  startsWithUnits [digit, digit, digit, digit, dash, digit, digit, dash,
    digit, digit] s

namespace Conversions

variable (c : Conversions)

/-- `_normalizeForComparison`. -/
def normalizeForComparison : Value → Value
  | .date _ time => .num time
  | .str s =>
      if c.parseDate s ≠ .nan ∧ startsWithDate s then .num (c.parseDate s)
      else .str s
  | v => v

/-- Conversion of an operand to a primitive value; `none` where it throws. -/
def toPrimitive : Value → Option Value
  | .date _ time => some (.num time)
  | .arr ref elements => (c.objectToString (.arr ref elements)).map .str
  | .obj ref members => (c.objectToString (.obj ref members)).map .str
  | v => some v

/-- The number of a primitive value. -/
def toNumber : Value → JsNumber
  | .null => .finite 0
  | .bool b => .finite (if b then 1 else 0)
  | .num x => x
  | .str s => c.stringToNumber s
  | _ => .nan

/-- The comparison behind the ordering operators: `none` where it throws, and
undefined where a number is `NaN`. -/
def isLessThan (a b : Value) : Option (Option Bool) := do
  let x ← c.toPrimitive a
  let y ← c.toPrimitive b
  match x, y with
  | .str s, .str t => some (some (decide (s < t)))
  | x, y =>
      if c.toNumber x = .nan ∨ c.toNumber y = .nan then some none
      else some (some ((c.toNumber x).lt (c.toNumber y)))

/-- `a > b`. -/
def greater (a b : Value) : Option Bool :=
  (c.isLessThan b a).map (· == some true)

/-- `a >= b`. -/
def greaterOrEqual (a b : Value) : Option Bool :=
  (c.isLessThan a b).map (· == some false)

/-- `a < b`. -/
def less (a b : Value) : Option Bool :=
  (c.isLessThan a b).map (· == some true)

/-- `a <= b`. -/
def lessOrEqual (a b : Value) : Option Bool :=
  (c.isLessThan b a).map (· == some false)

/-- `undefined` or `null`. -/
def isNullish : Value → Bool
  | .undefined => true
  | .null => true
  | _ => false

/-- Compare a field with a filter value, both normalized. -/
def compareNormalized (test : Value → Value → Option Bool)
    (value filterValue : Value) : Option Bool :=
  let nv := c.normalizeForComparison value
  let nfv := c.normalizeForComparison filterValue
  if isNullish nv || isNullish nfv then some false else test nv nfv

end Conversions

/-- The equality of `Array.prototype.includes`, which also finds `NaN`. -/
def sameValueZero (same : Value → Value → Bool) (v w : Value) : Bool :=
  same v w ||
    match v, w with
    | .num .nan, .num .nan => true
    | _, _ => false

/-- `_matchesFilter`, where `same` is `===` on the values of a record; `none`
where a comparison throws. -/
def matchesFilter (c : Conversions) (same : Value → Value → Bool)
    (fields : Fields) (filter : FieldFilter) : Option Bool :=
  let value := resolveFieldPath fields filter.path
  match filter.operator with
  | .eq => some (same value filter.value)
  | .neq => some (!same value filter.value)
  | .gt => c.compareNormalized c.greater value filter.value
  | .gte => c.compareNormalized c.greaterOrEqual value filter.value
  | .lt => c.compareNormalized c.less value filter.value
  | .lte => c.compareNormalized c.lessOrEqual value filter.value
  | .prefixed =>
      match value, filter.value with
      | .str s, .str p => some (p.isPrefixOf s)
      | _, _ => some false
  | .inList =>
      match filter.value with
      | .arr _ elements => some (elements.any (sameValueZero same value))
      | _ => some false
  | .contains =>
      match value, filter.value with
      | .str s, .str p => some (decide (p <:+: s))
      | _, _ => some false

/-- `_matchesFilters`. -/
def matchesFilters (c : Conversions) (same : Value → Value → Bool)
    (fields : Fields) : List FieldFilter → Option Bool
  | [] => some true
  | filter :: filters =>
      match matchesFilter c same fields filter with
      | none => none
      | some false => some false
      | some true => matchesFilters c same fields filters

/-! ## Strategies of the database -/

/-- `_isIDBAcceleratable`. -/
def isIDBAcceleratable : FilterOperator → Value → Bool
  | .prefixed, .str _ => true
  | .gt, .num (.finite _) => true
  | .gte, .num (.finite _) => true
  | .eq, .num (.finite _) => true
  | .eq, .str _ => true
  | _, _ => false

/-- `_lexicographicSuccessor`: increment the last code unit that is not
`0xFFFF` and drop what follows. -/
def lexicographicSuccessor (s : JsString) : Option JsString :=
  match s.reverse.dropWhile (· == 0xFFFF) with
  | [] => none
  | u :: rest => some ((u + 1) :: rest).reverse

/-- The key range of a filter that is accelerated. -/
def keyRange (filter : FieldFilter) : Option KeyRange :=
  match filter.operator, filter.value with
  | .eq, value => (toKey value).map KeyRange.only
  | .gt, value => (toKey value).map (KeyRange.lowerBound · true)
  | .gte, value => (toKey value).map (KeyRange.lowerBound · false)
  | .prefixed, .str p =>
      match lexicographicSuccessor p with
      | none => some (KeyRange.lowerBound (.str p) false)
      | some successor =>
          some (KeyRange.bound (.str p) (.str successor) false true)
  | _, _ => none

structure Strategy where
  indexFieldPath : JsString
  keyRange : KeyRange
  remainingFilters : List FieldFilter

/-- The loop of `_pickIDBStrategy`; an accelerated `eq` is dropped from the
remaining filters. -/
def pickLoop (indexedFields : List JsString) :
    List FieldFilter → List FieldFilter → Option Strategy
  | _, [] => none
  | before, filter :: after =>
      if filter.path ∈ indexedFields ∧
          isIDBAcceleratable filter.operator filter.value then
        match keyRange filter with
        | none => pickLoop indexedFields (before ++ [filter]) after
        | some range =>
            some ⟨filter.path, range,
              if filter.operator = .eq then before ++ after
              else before ++ filter :: after⟩
      else pickLoop indexedFields (before ++ [filter]) after

/-- `_pickIDBStrategy`. -/
def pickIDBStrategy (indexedFields : List JsString)
    (filters : List FieldFilter) : Option Strategy :=
  pickLoop indexedFields [] filters

/-- The cursor of a strategy visits the record: its key path finds a key in the
range. -/
def visits (strategy : Strategy) (fields : Fields) : Bool :=
  match (evaluateKeyPath (.obj 0 fields)
      (splitPath strategy.indexFieldPath)).bind toKey with
  | some key => strategy.keyRange.contains key
  | none => false

/-! ## Queries -/

/-- The record of one document path. -/
abbrev Entry := JsString × Fields

/-- Collect the entries that pass; `none` where the check of one throws. -/
def collect (verdict : Fields → Option Bool) :
    List Entry → Option (List Entry)
  | [] => some []
  | e :: entries =>
      match verdict e.2 with
      | none => none
      | some pass =>
          (collect verdict entries).map fun rest =>
            if pass then e :: rest else rest

/-- Calls that change an index. -/
inductive StorageCall where
  | put (documentPath : JsString) (fields : Fields)
  | delete (documentPath : JsString)
  | clear

/-- The records of either storage after a call. -/
def applyCall (records : InsertionMap JsString Fields) :
    StorageCall → InsertionMap JsString Fields
  | .put documentPath fields => records.set documentPath fields
  | .delete documentPath => records.erase documentPath
  | .clear => .empty

/-- The records after a sequence of calls on an empty index. -/
def contentOf (calls : List StorageCall) : InsertionMap JsString Fields :=
  calls.foldl applyCall .empty

/-- `MemoryIndexStorage.query`, without sort, limit and offset. -/
def memoryQuery (c : Conversions) (records : InsertionMap JsString Fields)
    (filters : List FieldFilter) : Option (List Entry) :=
  collect (matchesFilters c Value.strictEq · filters) records.entries

/-- `IDBIndexStorage.query`, without sort, limit and offset.  The records a
cursor returns are clones, whose objects are identical to no object of a
filter.  The order of the cursor is left out. -/
def idbQuery (c : Conversions) (indexedFields : List JsString)
    (records : InsertionMap JsString Fields) (filters : List FieldFilter) :
    Option (List Entry) :=
  match pickIDBStrategy indexedFields filters with
  | some strategy =>
      collect (matchesFilters c Value.primitiveEq · strategy.remainingFilters)
        (records.entries.filter fun e => visits strategy e.2)
  | none =>
      collect (matchesFilters c Value.primitiveEq · filters) records.entries

/-! ## Filters that compare an object with itself -/

/-- The filter compares a field with an object that the record holds. -/
def byIdentity (fields : Fields) (filter : FieldFilter) : Bool :=
  match filter.operator with
  | .eq => (resolveFieldPath fields filter.path).identical filter.value
  | .neq => (resolveFieldPath fields filter.path).identical filter.value
  | .inList =>
      match filter.value with
      | .arr _ elements =>
          elements.any (resolveFieldPath fields filter.path).identical
      | _ => false
  | _ => false

theorem primitiveEq_of_isObject {v : Value} (h : v.isObject = true)
    (w : Value) : v.primitiveEq w = false := by
  cases v with
  | date ref time => cases w <;> rfl
  | arr ref elements => cases w <;> rfl
  | obj ref members => cases w <;> rfl
  | _ => cases h

theorem isObject_of_identical {v w : Value} (h : v.identical w = true) :
    v.isObject = true := by
  simp only [Value.identical, Bool.and_eq_true] at h
  exact h.1.1

theorem sameValueZero_of_isObject {v : Value} (h : v.isObject = true)
    (w : Value) : sameValueZero Value.primitiveEq v w = false := by
  unfold sameValueZero
  rw [primitiveEq_of_isObject h w]
  cases v with
  | num x => cases h
  | _ => rfl

theorem strictEq_of_not_identical {v w : Value} (h : v.identical w = false) :
    v.strictEq w = v.primitiveEq w := by
  rw [Value.strictEq, h, Bool.or_false]

/-- Without such a filter, clones are filtered as the records are. -/
theorem matchesFilter_of_not_byIdentity (c : Conversions) {fields : Fields}
    {filter : FieldFilter} (h : byIdentity fields filter = false) :
    matchesFilter c Value.strictEq fields filter =
      matchesFilter c Value.primitiveEq fields filter := by
  unfold byIdentity at h
  unfold matchesFilter
  cases hop : filter.operator with
  | eq =>
      simp only [hop] at h
      simp only [strictEq_of_not_identical h]
  | neq =>
      simp only [hop] at h
      simp only [strictEq_of_not_identical h]
  | inList =>
      simp only [hop] at h
      cases hvalue : filter.value with
      | arr ref elements =>
          simp only [hvalue, List.any_eq_false, Bool.not_eq_true] at h
          simp only [Option.some.injEq]
          rw [Bool.eq_iff_iff, List.any_eq_true, List.any_eq_true]
          apply exists_congr
          intro w
          apply and_congr_right
          intro hw
          unfold sameValueZero
          rw [strictEq_of_not_identical (h w hw)]
      | _ => rfl
  | _ => rfl

/-- Such a filter does not accept both a record and its clone. -/
theorem not_both_of_byIdentity {c : Conversions} {fields : Fields}
    {filter : FieldFilter} (h : byIdentity fields filter = true)
    (hstrict : matchesFilter c Value.strictEq fields filter = some true)
    (hclone : matchesFilter c Value.primitiveEq fields filter = some true) :
    False := by
  unfold byIdentity at h
  unfold matchesFilter at hstrict hclone
  cases hop : filter.operator with
  | eq =>
      simp only [hop] at h hclone
      rw [primitiveEq_of_isObject (isObject_of_identical h)] at hclone
      cases hclone
  | neq =>
      simp only [hop] at h hstrict
      rw [Value.strictEq, h, Bool.or_true] at hstrict
      cases hstrict
  | inList =>
      simp only [hop] at h hclone
      cases hvalue : filter.value with
      | arr ref elements =>
          simp only [hvalue, List.any_eq_true] at h
          obtain ⟨w, -, hw⟩ := h
          simp only [hvalue, Option.some.injEq, List.any_eq_true] at hclone
          obtain ⟨w', -, hw'⟩ := hclone
          rw [sameValueZero_of_isObject (isObject_of_identical hw)] at hw'
          cases hw'
      | _ => simp [hvalue] at h
  | _ => simp [hop] at h

theorem matchesFilters_iff {c : Conversions} {same : Value → Value → Bool}
    {fields : Fields} :
    ∀ {filters : List FieldFilter},
      matchesFilters c same fields filters = some true ↔
        ∀ filter ∈ filters, matchesFilter c same fields filter = some true := by
  intro filters
  induction filters with
  | nil => simp [matchesFilters]
  | cons filter filters ih =>
      rw [matchesFilters, List.forall_mem_cons, ← ih]
      rcases matchesFilter c same fields filter with _ | _ | _ <;> simp

/-! ## The chosen strategy -/

/-- The first filter that an index accelerates. -/
def accelerated (indexedFields : List JsString)
    (filters : List FieldFilter) : Option FieldFilter :=
  filters.find? fun filter =>
    decide (filter.path ∈ indexedFields) &&
      isIDBAcceleratable filter.operator filter.value

theorem keyRange_isSome {filter : FieldFilter}
    (h : isIDBAcceleratable filter.operator filter.value = true) :
    ∃ range, keyRange filter = some range := by
  unfold isIDBAcceleratable at h
  unfold keyRange
  split at h
  · rename_i p hop hvalue
    simp only [hop, hvalue]
    split <;> exact ⟨_, rfl⟩
  · rename_i q hop hvalue
    simp [hop, hvalue, toKey]
  · rename_i q hop hvalue
    simp [hop, hvalue, toKey]
  · rename_i q hop hvalue
    simp [hop, hvalue, toKey]
  · rename_i p hop hvalue
    simp [hop, hvalue, toKey]
  · cases h

theorem pickLoop_spec (indexedFields : List JsString) :
    ∀ after before,
      (accelerated indexedFields after = none ∧
        pickLoop indexedFields before after = none) ∨
      ∃ filter mid rest range,
        accelerated indexedFields after = some filter ∧
          after = mid ++ filter :: rest ∧ keyRange filter = some range ∧
          pickLoop indexedFields before after = some ⟨filter.path, range,
            if filter.operator = .eq then before ++ mid ++ rest
            else before ++ mid ++ filter :: rest⟩ := by
  intro after
  induction after with
  | nil =>
      intro before
      exact Or.inl ⟨rfl, rfl⟩
  | cons filter after ih =>
      intro before
      by_cases hfilter : filter.path ∈ indexedFields ∧
          isIDBAcceleratable filter.operator filter.value
      · right
        obtain ⟨range, hrange⟩ := keyRange_isSome hfilter.2
        refine ⟨filter, [], after, range, ?_, rfl, hrange, ?_⟩
        · simp [accelerated, hfilter.1, hfilter.2]
        · rw [pickLoop, if_pos hfilter, hrange]
          simp
      · have hskip : accelerated indexedFields (filter :: after) =
            accelerated indexedFields after := by
          rw [accelerated, List.find?_cons_of_neg]
          · rfl
          · simpa using hfilter
        rw [hskip, pickLoop, if_neg hfilter]
        rcases ih (before ++ [filter]) with hnone | hsome
        · exact Or.inl hnone
        · right
          obtain ⟨f, mid, rest, range, hacc, rfl, hrange, hpick⟩ := hsome
          refine ⟨f, filter :: mid, rest, range, hacc, rfl, hrange, ?_⟩
          rw [hpick]
          simp

/-! ## What a cursor visits -/

theorem key_of_not_stringLength {fields : Fields} {path : JsString}
    (h : stringLength (.obj 0 fields) (splitPath path) = none) :
    (evaluateKeyPath (.obj 0 fields) (splitPath path)).bind toKey =
      toKey (resolveFieldPath fields path) := by
  obtain ⟨hundefined, hdefined⟩ :=
    evaluateKeyPath_of_not_stringLength (splitPath path) (by simp) h
  by_cases hvalue : resolveFieldPath fields path = .undefined
  · rw [hundefined hvalue, hvalue]
    rfl
  · rw [hdefined hvalue]
    rfl

theorem key_of_stringLength {fields : Fields} {path : JsString} {n : ℕ}
    (h : stringLength (.obj 0 fields) (splitPath path) = some n) :
    (evaluateKeyPath (.obj 0 fields) (splitPath path)).bind toKey =
        toKey (.num (.finite n)) ∧
      resolveFieldPath fields path = .undefined := by
  obtain ⟨hkey, hresolve⟩ := evaluateKeyPath_of_stringLength _ h
  refine ⟨?_, hresolve⟩
  rw [hkey]
  rfl

theorem isIDBAcceleratable_eq {v : Value}
    (h : isIDBAcceleratable .eq v = true) :
    (∃ q, v = .num (.finite q)) ∨ ∃ s, v = .str s := by
  unfold isIDBAcceleratable at h
  split at h
  · rename_i heq
    cases heq
  · rename_i heq
    cases heq
  · rename_i heq
    cases heq
  · rename_i q _
    exact Or.inl ⟨q, rfl⟩
  · rename_i s _
    exact Or.inr ⟨s, rfl⟩
  · cases h

/-- `===` with an accelerated value is equality. -/
theorem primitiveEq_iff {v w : Value} (h : isIDBAcceleratable .eq w = true) :
    v.primitiveEq w = true ↔ v = w := by
  rcases isIDBAcceleratable_eq h with ⟨q, rfl⟩ | ⟨s, rfl⟩
  · cases v with
    | num x =>
        simp only [Value.primitiveEq, decide_eq_true_eq, Value.num.injEq,
          and_iff_right_iff_imp]
        rintro rfl
        simp
    | _ => simp [Value.primitiveEq]
  · cases v <;> simp [Value.primitiveEq]

/-- The range of an accelerated `eq` finds the keys of its value. -/
theorem contains_only_iff {w : Value} (h : isIDBAcceleratable .eq w = true) :
    ∃ key, toKey w = some key ∧ ∀ v key', toKey v = some key' →
      ((KeyRange.only key).contains key' = true ↔ v = w) := by
  rcases isIDBAcceleratable_eq h with ⟨q, rfl⟩ | ⟨s, rfl⟩
  · exact ⟨_, rfl, fun v key' hv => KeyRange.contains_only_num hv⟩
  · exact ⟨_, rfl, fun v key' hv => KeyRange.contains_only_str hv⟩

/-- An accelerated `eq` visits the records with its value, and those whose path
ends in the length of a string that it equals. -/
theorem visits_eq_iff {filter : FieldFilter} {range : KeyRange}
    (rest : List FieldFilter) (fields : Fields) (hop : filter.operator = .eq)
    (hvalue : isIDBAcceleratable .eq filter.value = true)
    (hrange : keyRange filter = some range) :
    visits ⟨filter.path, range, rest⟩ fields = true ↔
      resolveFieldPath fields filter.path = filter.value ∨
        ∃ n, stringLength (.obj 0 fields) (splitPath filter.path) = some n ∧
          filter.value = .num (.finite n) := by
  obtain ⟨key, hkey, hcontains⟩ := contains_only_iff hvalue
  simp only [keyRange, hop, hkey, Option.map_some, Option.some.injEq] at hrange
  subst hrange
  rcases hlength : stringLength (.obj 0 fields) (splitPath filter.path) with
    _ | n
  · simp only [visits, key_of_not_stringLength hlength, reduceCtorEq,
      false_and, exists_false, or_false]
    rcases hv : toKey (resolveFieldPath fields filter.path) with _ | key'
    · simp only [Bool.false_eq_true, false_iff]
      intro heq
      rw [heq, hkey] at hv
      cases hv
    · exact hcontains _ key' hv
  · obtain ⟨hnumber, hundefined⟩ := key_of_stringLength hlength
    have hv : toKey (.num (.finite n)) = some (.num (.finite n)) := by
      simp [toKey]
    simp only [visits, hnumber, hv, hcontains _ _ hv, hundefined]
    constructor
    · intro heq
      exact Or.inr ⟨n, rfl, heq.symm⟩
    · rintro (heq | ⟨n', hn, heq⟩)
      · rw [← heq] at hkey
        cases hkey
      · cases hn
        exact heq.symm

theorem lt_succ_of_ne {u : UInt16} (h : u ≠ 0xFFFF) : u < u + 1 := by
  rw [UInt16.lt_iff_toNat_lt, UInt16.toNat_add]
  have hlt := u.toNat_lt
  have hne : u.toNat ≠ 0xFFFF := by
    intro heq
    exact h (UInt16.toNat_inj.1 heq)
  simp only [UInt16.reduceToNat]
  omega

/-- What the successor increments, between what it keeps and what it drops. -/
theorem exists_of_lexicographicSuccessor {p t : JsString}
    (h : lexicographicSuccessor p = some t) :
    ∃ (init : JsString) (u : UInt16) (k : ℕ), u ≠ 0xFFFF ∧
      p = init ++ u :: List.replicate k 0xFFFF ∧ t = init ++ [u + 1] := by
  unfold lexicographicSuccessor at h
  split at h
  · cases h
  · rename_i u init hdrop
    cases h
    have hne : u ≠ 0xFFFF := by
      have hhead := List.head?_dropWhile_not (· == (0xFFFF : UInt16)) p.reverse
      rw [hdrop] at hhead
      simpa using hhead
    have hdropped : ∀ v ∈ p.reverse.takeWhile (· == (0xFFFF : UInt16)),
        v = 0xFFFF := fun v hv => by
      have hall := List.all_takeWhile (p := (· == (0xFFFF : UInt16)))
        (l := p.reverse)
      simpa using List.all_eq_true.1 hall v hv
    have hp : p = init.reverse ++ u ::
        (p.reverse.takeWhile (· == (0xFFFF : UInt16))).reverse := by
      have hsplit := List.takeWhile_append_dropWhile
        (p := (· == (0xFFFF : UInt16))) (l := p.reverse)
      rw [hdrop] at hsplit
      have hreverse := congrArg List.reverse hsplit
      simpa using hreverse.symm
    rw [List.eq_replicate_of_mem hdropped, List.reverse_replicate] at hp
    exact ⟨init.reverse, u, _, hne, hp, List.reverse_cons⟩

/-- Every string with a prefix is below the successor of the prefix. -/
theorem append_lt_successor {p t : JsString}
    (h : lexicographicSuccessor p = some t) (rest : JsString) :
    p ++ rest < t := by
  obtain ⟨init, u, k, hne, rfl, rfl⟩ := exists_of_lexicographicSuccessor h
  rw [List.append_assoc]
  apply List.append_left_lt
  rw [List.cons_append, List.cons_lt_cons_iff]
  exact Or.inl (lt_succ_of_ne hne)

/-- An accelerated `prefix` visits every record it accepts. -/
theorem visits_of_prefixed {c : Conversions} {same : Value → Value → Bool}
    {filter : FieldFilter} {range : KeyRange} (rest : List FieldFilter)
    {fields : Fields} (hop : filter.operator = .prefixed)
    (hrange : keyRange filter = some range)
    (hmatch : matchesFilter c same fields filter = some true) :
    visits ⟨filter.path, range, rest⟩ fields = true := by
  simp only [matchesFilter, hop] at hmatch
  split at hmatch
  · rename_i s p hs hp
    simp only [Option.some.injEq, List.isPrefixOf_iff_prefix] at hmatch
    obtain ⟨tail, rfl⟩ := hmatch
    have hlength : stringLength (.obj 0 fields) (splitPath filter.path) =
        none := by
      rcases hlength : stringLength (.obj 0 fields) (splitPath filter.path)
        with _ | n
      · rfl
      · rw [(key_of_stringLength hlength).2] at hs
        cases hs
    simp only [visits, key_of_not_stringLength hlength, hs, toKey]
    have hlow := KeyRange.above_str_of_append p tail
    simp only [keyRange, hop, hp] at hrange
    split at hrange
    · cases hrange
      simp [KeyRange.contains, KeyRange.lowerBound, hlow]
    · rename_i t hsuccessor
      cases hrange
      have hlt := append_lt_successor hsuccessor tail
      simp [KeyRange.contains, KeyRange.bound, hlow, KeyRange.below, Key.cmp,
        compareStrings, hlt]
  · cases hmatch

/-- The filter is `gt` or `gte`. -/
def isLowerBound (filter : FieldFilter) : Prop :=
  filter.operator = .gt ∨ filter.operator = .gte

theorem isIDBAcceleratable_lowerBound {operator : FilterOperator} {v : Value}
    (hop : operator = .gt ∨ operator = .gte)
    (h : isIDBAcceleratable operator v = true) :
    ∃ q, v = .num (.finite q) := by
  have hgt : isIDBAcceleratable .gt v = true := by
    rcases hop with rfl | rfl
    · exact h
    · cases v with
      | num x => cases x <;> exact h
      | _ => exact h
  cases v with
  | num x =>
      cases x with
      | finite q => exact ⟨q, rfl⟩
      | _ => cases hgt
  | _ => cases hgt

/-- What an ordering filter with a number accepts: a value that is above the
number, or at it for `gte`, if it is a number itself. -/
theorem lowerBound_of_match {c : Conversions} {same : Value → Value → Bool}
    {fields : Fields} {filter : FieldFilter} {q : ℚ}
    (hop : isLowerBound filter) (hvalue : filter.value = .num (.finite q))
    (hmatch : matchesFilter c same fields filter = some true) :
    resolveFieldPath fields filter.path ≠ .undefined ∧
      ∀ x, resolveFieldPath fields filter.path = .num x → x ≠ .nan →
        (JsNumber.finite q).lt x = true ∨
          (decide (filter.operator = .gt) = false ∧
            x.lt (.finite q) = false) := by
  rcases hop with hop | hop
  · simp only [matchesFilter, hop, hvalue, Conversions.compareNormalized] at hmatch
    constructor
    · intro hundefined
      simp [hundefined, Conversions.normalizeForComparison,
        Conversions.isNullish] at hmatch
    · intro x hx hnan
      simp [hx, Conversions.normalizeForComparison, Conversions.isNullish,
        Conversions.greater, Conversions.isLessThan, Conversions.toPrimitive,
        Conversions.toNumber, hnan] at hmatch
      exact Or.inl hmatch
  · simp only [matchesFilter, hop, hvalue, Conversions.compareNormalized] at hmatch
    constructor
    · intro hundefined
      simp [hundefined, Conversions.normalizeForComparison,
        Conversions.isNullish] at hmatch
    · intro x hx hnan
      simp [hx, Conversions.normalizeForComparison, Conversions.isNullish,
        Conversions.greaterOrEqual, Conversions.isLessThan,
        Conversions.toPrimitive, Conversions.toNumber, hnan] at hmatch
      exact Or.inr ⟨by simp [hop], hmatch⟩

/-- An accelerated ordering filter visits the records it accepts whose value is
a key. -/
theorem visits_lowerBound_iff {c : Conversions}
    {same : Value → Value → Bool} {filter : FieldFilter} {range : KeyRange}
    {rest : List FieldFilter} {fields : Fields} (hop : isLowerBound filter)
    (hacc : isIDBAcceleratable filter.operator filter.value = true)
    (hrange : keyRange filter = some range)
    (hmatch : matchesFilter c same fields filter = some true) :
    visits ⟨filter.path, range, rest⟩ fields = true ↔
      (toKey (resolveFieldPath fields filter.path)).isSome := by
  obtain ⟨q, hvalue⟩ := isIDBAcceleratable_lowerBound hop hacc
  obtain ⟨hdefined, hbound⟩ := lowerBound_of_match hop hvalue hmatch
  have hlength : stringLength (.obj 0 fields) (splitPath filter.path) =
      none := by
    rcases hlength : stringLength (.obj 0 fields) (splitPath filter.path)
      with _ | n
    · rfl
    · exact absurd (key_of_stringLength hlength).2 hdefined
  have hrange' : range = KeyRange.lowerBound (.num (.finite q))
      (decide (filter.operator = .gt)) := by
    rcases hop with hop | hop
    · simp only [keyRange, hop, hvalue] at hrange ⊢
      simpa [toKey] using hrange.symm
    · simp only [keyRange, hop, hvalue] at hrange ⊢
      simpa [toKey] using hrange.symm
  simp only [visits, key_of_not_stringLength hlength]
  rcases hkey : toKey (resolveFieldPath fields filter.path) with _ | key
  · simp
  · simp only [Option.isSome_some, iff_true, hrange']
    by_cases hrank : 0 < key.rank
    · exact KeyRange.contains_lowerBound_of_rank hrank _ _
    · cases key with
      | num x =>
          obtain ⟨hx, hnan⟩ := toKey_num hkey
          exact KeyRange.contains_lowerBound_num (hbound x hx hnan)
      | _ => simp [Key.rank] at hrank

/-! ## Agreement -/

/-- Both queries return, and the same set of entries. -/
def SameEntries (a b : Option (List Entry)) : Prop :=
  ∃ xs ys, a = some xs ∧ b = some ys ∧ ∀ e, e ∈ xs ↔ e ∈ ys

/-- The verdict of the database on one record. -/
def idbVerdict (c : Conversions) (indexedFields : List JsString)
    (filters : List FieldFilter) (fields : Fields) : Option Bool :=
  match pickIDBStrategy indexedFields filters with
  | some strategy =>
      if visits strategy fields then
        matchesFilters c Value.primitiveEq fields strategy.remainingFilters
      else some false
  | none => matchesFilters c Value.primitiveEq fields filters

/-- If the accelerated filter is an ordering one, the value of its field is a
key. -/
def KeyedIfOrdered (indexedFields : List JsString)
    (filters : List FieldFilter) (fields : Fields) : Prop :=
  ∀ filter, accelerated indexedFields filters = some filter →
    isLowerBound filter →
      (toKey (resolveFieldPath fields filter.path)).isSome

/-- The accelerated filter is an `eq` with the length of a string, at which its
path ends, and a clone of the record passes the remaining filters. -/
def LengthHit (c : Conversions) (indexedFields : List JsString)
    (filters : List FieldFilter) (fields : Fields) : Prop :=
  ∃ filter strategy n, accelerated indexedFields filters = some filter ∧
    filter.operator = .eq ∧
    stringLength (.obj 0 fields) (splitPath filter.path) = some n ∧
    filter.value = .num (.finite n) ∧
    pickIDBStrategy indexedFields filters = some strategy ∧
    matchesFilters c Value.primitiveEq fields strategy.remainingFilters =
      some true

theorem collect_eq_some_iff {verdict : Fields → Option Bool} :
    ∀ {entries xs : List Entry},
      collect verdict entries = some xs ↔
        (∀ e ∈ entries, verdict e.2 ≠ none) ∧
          xs = entries.filter fun e => verdict e.2 == some true := by
  intro entries
  induction entries with
  | nil =>
      intro xs
      simp [collect, eq_comm]
  | cons e entries ih =>
      intro xs
      rw [collect]
      rcases hverdict : verdict e.2 with _ | pass
      · simp [hverdict]
      · simp only [Option.map_eq_some_iff, List.forall_mem_cons, hverdict,
          List.filter_cons, ih]
        cases pass with
        | false => simp [eq_comm]
        | true => simp [eq_comm]

theorem operator_of_acceleratable {operator : FilterOperator} {v : Value}
    (h : isIDBAcceleratable operator v = true) :
    operator = .eq ∨ operator = .prefixed ∨ operator = .gt ∨
      operator = .gte := by
  cases operator with
  | eq => exact Or.inl rfl
  | prefixed => exact Or.inr (Or.inl rfl)
  | gt => exact Or.inr (Or.inr (Or.inl rfl))
  | gte => exact Or.inr (Or.inr (Or.inr rfl))
  | _ => cases v <;> cases h

theorem acceleratable_of_accelerated {indexedFields : List JsString}
    {filters : List FieldFilter} {filter : FieldFilter}
    (h : accelerated indexedFields filters = some filter) :
    isIDBAcceleratable filter.operator filter.value = true := by
  have hfound := List.find?_some h
  rw [Bool.and_eq_true] at hfound
  exact hfound.2

section Verdict

variable {c : Conversions} {indexedFields : List JsString}
  {mid rest : List FieldFilter} {filter : FieldFilter} {range : KeyRange}
  {fields : Fields}

/-- An accelerated `eq` is dropped from the filters. -/
theorem idbVerdict_eq_iff
    (hacc : accelerated indexedFields (mid ++ filter :: rest) = some filter)
    (hop : filter.operator = .eq) (hrange : keyRange filter = some range)
    (hpick : pickIDBStrategy indexedFields (mid ++ filter :: rest) =
      some ⟨filter.path, range, mid ++ rest⟩) :
    idbVerdict c indexedFields (mid ++ filter :: rest) fields = some true ↔
      (matchesFilters c Value.primitiveEq fields (mid ++ filter :: rest) =
          some true ∧
        KeyedIfOrdered indexedFields (mid ++ filter :: rest) fields) ∨
      LengthHit c indexedFields (mid ++ filter :: rest) fields := by
  have hvalue := acceleratable_of_accelerated hacc
  rw [hop] at hvalue
  have hvisits := visits_eq_iff (mid ++ rest) fields hop hvalue hrange
  have hkeyed :
      KeyedIfOrdered indexedFields (mid ++ filter :: rest) fields := by
    intro filter' hfilter' hlower
    rw [hacc, Option.some.injEq] at hfilter'
    subst hfilter'
    rcases hlower with hlower | hlower
    · rw [hop] at hlower
      cases hlower
    · rw [hop] at hlower
      cases hlower
  have hfilter : matchesFilter c Value.primitiveEq fields filter = some true ↔
      resolveFieldPath fields filter.path = filter.value := by
    simp only [matchesFilter, hop, Option.some.injEq]
    exact primitiveEq_iff hvalue
  have hall : matchesFilters c Value.primitiveEq fields
        (mid ++ filter :: rest) = some true ↔
      resolveFieldPath fields filter.path = filter.value ∧
        matchesFilters c Value.primitiveEq fields (mid ++ rest) =
          some true := by
    rw [matchesFilters_iff, matchesFilters_iff, ← hfilter]
    simp only [List.forall_mem_append, List.forall_mem_cons]
    tauto
  have hverdict : idbVerdict c indexedFields (mid ++ filter :: rest) fields =
        some true ↔
      visits ⟨filter.path, range, mid ++ rest⟩ fields = true ∧
        matchesFilters c Value.primitiveEq fields (mid ++ rest) =
          some true := by
    simp only [idbVerdict, hpick]
    split
    · rename_i hvisit
      simp [hvisit]
    · rename_i hvisit
      simp [hvisit]
  rw [hverdict, hvisits, hall]
  constructor
  · rintro ⟨heq | ⟨n, hn, heq⟩, hrest⟩
    · exact Or.inl ⟨⟨heq, hrest⟩, hkeyed⟩
    · exact Or.inr ⟨filter, _, n, hacc, hop, hn, heq, hpick, hrest⟩
  · rintro (⟨⟨heq, hrest⟩, -⟩ | ⟨filter', strategy, n, hacc', -, hn, heq,
      hpick', hrest⟩)
    · exact ⟨Or.inl heq, hrest⟩
    · rw [hacc, Option.some.injEq] at hacc'
      subst hacc'
      rw [hpick, Option.some.injEq] at hpick'
      subst hpick'
      exact ⟨Or.inr ⟨n, hn, heq⟩, hrest⟩

/-- Every other accelerated filter is checked again. -/
theorem idbVerdict_kept_iff {filters : List FieldFilter}
    (hacc : accelerated indexedFields filters = some filter)
    (hmem : filter ∈ filters) (hop : filter.operator ≠ .eq)
    (hrange : keyRange filter = some range)
    (hpick : pickIDBStrategy indexedFields filters =
      some ⟨filter.path, range, filters⟩) :
    idbVerdict c indexedFields filters fields = some true ↔
      (matchesFilters c Value.primitiveEq fields filters = some true ∧
        KeyedIfOrdered indexedFields filters fields) ∨
      LengthHit c indexedFields filters fields := by
  have hvalue := acceleratable_of_accelerated hacc
  have hnoHit : ¬ LengthHit c indexedFields filters fields := by
    rintro ⟨filter', strategy, n, hacc', hop', -⟩
    rw [hacc, Option.some.injEq] at hacc'
    subst hacc'
    exact hop hop'
  have hkeyed : KeyedIfOrdered indexedFields filters fields ↔
      (isLowerBound filter →
        (toKey (resolveFieldPath fields filter.path)).isSome) := by
    constructor
    · intro h
      exact h filter hacc
    · intro h filter' hacc'
      rw [hacc, Option.some.injEq] at hacc'
      subst hacc'
      exact h
  have hverdict : idbVerdict c indexedFields filters fields = some true ↔
      visits ⟨filter.path, range, filters⟩ fields = true ∧
        matchesFilters c Value.primitiveEq fields filters = some true := by
    simp only [idbVerdict, hpick]
    split
    · rename_i hvisit
      simp [hvisit]
    · rename_i hvisit
      simp [hvisit]
  rw [hverdict, or_iff_left hnoHit, hkeyed, and_comm]
  apply and_congr_right
  intro hmatches
  have hmatch := matchesFilters_iff.1 hmatches filter hmem
  rcases operator_of_acceleratable hvalue with h | hprefixed | hlower
  · exact absurd h hop
  · have hvisits := visits_of_prefixed filters hprefixed hrange hmatch
    have hnot : ¬ isLowerBound filter := by
      simp [isLowerBound, hprefixed]
    exact ⟨fun _ h => absurd h hnot, fun _ => hvisits⟩
  · rw [visits_lowerBound_iff hlower hvalue hrange hmatch]
    exact ⟨fun h _ => h, fun h => h hlower⟩

end Verdict

/-- The database accepts the clones that pass all filters and, under an ordering
strategy, have a key; and the hits on the length of a string. -/
theorem idbVerdict_iff (c : Conversions) (indexedFields : List JsString)
    (filters : List FieldFilter) (fields : Fields) :
    idbVerdict c indexedFields filters fields = some true ↔
      (matchesFilters c Value.primitiveEq fields filters = some true ∧
        KeyedIfOrdered indexedFields filters fields) ∨
      LengthHit c indexedFields filters fields := by
  rcases pickLoop_spec indexedFields filters [] with ⟨hacc, hpick⟩ |
    ⟨filter, mid, rest, range, hacc, rfl, hrange, hpick⟩
  · have hpick' : pickIDBStrategy indexedFields filters = none := hpick
    have hkeyed : KeyedIfOrdered indexedFields filters fields := by
      intro filter hfilter
      rw [hacc] at hfilter
      cases hfilter
    have hnoHit : ¬ LengthHit c indexedFields filters fields := by
      rintro ⟨filter, strategy, n, hfilter, -⟩
      rw [hacc] at hfilter
      cases hfilter
    rw [or_iff_left hnoHit, and_iff_left hkeyed, idbVerdict, hpick']
  · by_cases hop : filter.operator = .eq
    · rw [if_pos hop] at hpick
      exact idbVerdict_eq_iff hacc hop hrange hpick
    · rw [if_neg hop] at hpick
      exact idbVerdict_kept_iff hacc (by simp) hop hrange hpick

/-- What makes the two storages agree on a record.  No comparison throws.  What
memory accepts is accepted without comparing an object with itself, and has a
key under an ordering strategy.  What the database accepts is not refused by
memory for comparing an object with itself, and is no hit on the length of a
string. -/
structure Faithful (c : Conversions) (indexedFields : List JsString)
    (filters : List FieldFilter) (fields : Fields) : Prop where
  memoryReturns : matchesFilters c Value.strictEq fields filters ≠ none
  cursorReturns : idbVerdict c indexedFields filters fields ≠ none
  accepted : matchesFilters c Value.strictEq fields filters = some true →
    (∀ filter ∈ filters, byIdentity fields filter = false) ∧
      KeyedIfOrdered indexedFields filters fields
  found : matchesFilters c Value.primitiveEq fields filters = some true →
    KeyedIfOrdered indexedFields filters fields →
      ∀ filter ∈ filters, byIdentity fields filter = false
  noLengthHit : ¬ LengthHit c indexedFields filters fields

theorem matchesFilters_of_not_byIdentity {c : Conversions} {fields : Fields}
    {filters : List FieldFilter}
    (h : ∀ filter ∈ filters, byIdentity fields filter = false) :
    matchesFilters c Value.strictEq fields filters = some true ↔
      matchesFilters c Value.primitiveEq fields filters = some true := by
  rw [matchesFilters_iff, matchesFilters_iff]
  apply forall₂_congr
  intro filter hfilter
  rw [matchesFilter_of_not_byIdentity c (h filter hfilter)]

theorem not_byIdentity_of_both {c : Conversions} {fields : Fields}
    {filters : List FieldFilter}
    (hstrict : matchesFilters c Value.strictEq fields filters = some true)
    (hclone : matchesFilters c Value.primitiveEq fields filters = some true) :
    ∀ filter ∈ filters, byIdentity fields filter = false := by
  intro filter hfilter
  by_contra hidentity
  rw [Bool.not_eq_false] at hidentity
  exact not_both_of_byIdentity hidentity
    (matchesFilters_iff.1 hstrict filter hfilter)
    (matchesFilters_iff.1 hclone filter hfilter)

/-- A hit on the length of a string is refused by memory. -/
theorem not_accepted_of_lengthHit {c : Conversions}
    {indexedFields : List JsString} {filters : List FieldFilter}
    {fields : Fields} (h : LengthHit c indexedFields filters fields) :
    matchesFilters c Value.strictEq fields filters ≠ some true := by
  obtain ⟨filter, strategy, n, hacc, hop, hlength, hvalue, -⟩ := h
  intro haccepted
  have hmatch := matchesFilters_iff.1 haccepted filter
    (List.mem_of_find?_eq_some hacc)
  simp [matchesFilter, hop, hvalue, (key_of_stringLength hlength).2,
    Value.strictEq, Value.primitiveEq, Value.identical, Value.isObject]
    at hmatch

/-- The verdicts on a record agree exactly if it is faithful. -/
theorem faithful_iff (c : Conversions) (indexedFields : List JsString)
    (filters : List FieldFilter) (fields : Fields) :
    Faithful c indexedFields filters fields ↔
      matchesFilters c Value.strictEq fields filters ≠ none ∧
        idbVerdict c indexedFields filters fields ≠ none ∧
        (matchesFilters c Value.strictEq fields filters = some true ↔
          idbVerdict c indexedFields filters fields = some true) := by
  have hverdict := idbVerdict_iff c indexedFields filters fields
  constructor
  · intro h
    refine ⟨h.memoryReturns, h.cursorReturns, ?_⟩
    rw [hverdict, or_iff_left h.noLengthHit]
    constructor
    · intro haccepted
      obtain ⟨hidentity, hkeyed⟩ := h.accepted haccepted
      exact ⟨(matchesFilters_of_not_byIdentity hidentity).1 haccepted, hkeyed⟩
    · rintro ⟨hclone, hkeyed⟩
      exact (matchesFilters_of_not_byIdentity (h.found hclone hkeyed)).2 hclone
  · rintro ⟨hmemory, hcursor, hiff⟩
    rw [hverdict] at hiff
    refine ⟨hmemory, hcursor, ?_, ?_, ?_⟩
    · intro haccepted
      rcases hiff.1 haccepted with ⟨hclone, hkeyed⟩ | hhit
      · exact ⟨not_byIdentity_of_both haccepted hclone, hkeyed⟩
      · exact absurd haccepted (not_accepted_of_lengthHit hhit)
    · intro hclone hkeyed
      exact not_byIdentity_of_both (hiff.2 (Or.inl ⟨hclone, hkeyed⟩)) hclone
    · intro hhit
      exact not_accepted_of_lengthHit hhit (hiff.2 (Or.inr hhit))

theorem idbQuery_eq_some_iff {c : Conversions} {indexedFields : List JsString}
    {records : InsertionMap JsString Fields} {filters : List FieldFilter}
    {ys : List Entry} :
    idbQuery c indexedFields records filters = some ys ↔
      (∀ e ∈ records.entries,
        idbVerdict c indexedFields filters e.2 ≠ none) ∧
      ys = records.entries.filter fun e =>
        idbVerdict c indexedFields filters e.2 == some true := by
  unfold idbQuery idbVerdict
  rcases pickIDBStrategy indexedFields filters with _ | strategy
  · exact collect_eq_some_iff
  · simp only [collect_eq_some_iff, List.mem_filter, List.filter_filter]
    apply and_congr
    · constructor
      · intro h e he
        split
        · rename_i hvisit
          exact h e ⟨he, hvisit⟩
        · simp
      · rintro h e ⟨he, hvisit⟩
        have hreturns := h e he
        rwa [if_pos hvisit] at hreturns
    · have hsame : (fun e : Entry => (matchesFilters c Value.primitiveEq e.2
            strategy.remainingFilters == some true) && visits strategy e.2) =
          fun e => (if visits strategy e.2 then
            matchesFilters c Value.primitiveEq e.2 strategy.remainingFilters
          else some false) == some true := by
        funext e
        by_cases hvisit : visits strategy e.2 = true
        · simp [hvisit]
        · simp [hvisit]
      rw [hsame]

/-- For every content that calls leave behind, every set of indexed fields and
every list of filters: the two queries return the same entries if and only if
every record is faithful. -/
theorem queries_agree_iff (c : Conversions) (indexedFields : List JsString)
    (calls : List StorageCall) (filters : List FieldFilter) :
    SameEntries (memoryQuery c (contentOf calls) filters)
        (idbQuery c indexedFields (contentOf calls) filters) ↔
      ∀ e ∈ (contentOf calls).entries,
        Faithful c indexedFields filters e.2 := by
  simp only [SameEntries, memoryQuery, collect_eq_some_iff,
    idbQuery_eq_some_iff]
  constructor
  · rintro ⟨xs, ys, ⟨hmemory, rfl⟩, ⟨hcursor, rfl⟩, hsame⟩ e he
    rw [faithful_iff]
    refine ⟨hmemory e he, hcursor e he, ?_⟩
    simpa [he] using hsame e
  · intro h
    refine ⟨_, _, ⟨fun e he => (h e he).memoryReturns, rfl⟩,
      ⟨fun e he => (h e he).cursorReturns, rfl⟩, ?_⟩
    intro e
    simp only [List.mem_filter, beq_iff_eq]
    apply and_congr_right
    intro he
    exact ((faithful_iff c indexedFields filters e.2).1 (h e he)).2.2

/-- Conversions of which the run below uses none. -/
def noConversions : Conversions where
  parseDate _ := .nan
  stringToNumber _ := .nan
  objectToString _ := none

/-- One document whose field `done` is `true`. -/
def flaggedDocument : List StorageCall :=
  [.put (JsString.ofString "/tasks/1")
    [(JsString.ofString "done", .bool true)]]

/-- `done > 0`, which `true` satisfies. -/
def positiveFlag : FieldFilter :=
  ⟨JsString.ofString "done", .gt, .num (.finite 0)⟩

/-- Memory finds the document; it is in no index, since a boolean is no key. -/
theorem queries_disagree_on_boolean :
    memoryQuery noConversions (contentOf flaggedDocument) [positiveFlag] =
        some [(JsString.ofString "/tasks/1",
          [(JsString.ofString "done", .bool true)])] ∧
      idbQuery noConversions [JsString.ofString "done"]
        (contentOf flaggedDocument) [positiveFlag] = some [] ∧
      ¬ SameEntries
        (memoryQuery noConversions (contentOf flaggedDocument) [positiveFlag])
        (idbQuery noConversions [JsString.ofString "done"]
          (contentOf flaggedDocument) [positiveFlag]) := by
  have hmemory : memoryQuery noConversions (contentOf flaggedDocument)
      [positiveFlag] = some [(JsString.ofString "/tasks/1",
        [(JsString.ofString "done", .bool true)])] := by rfl
  have hidb : idbQuery noConversions [JsString.ofString "done"]
      (contentOf flaggedDocument) [positiveFlag] = some [] := by rfl
  refine ⟨hmemory, hidb, ?_⟩
  rintro ⟨xs, ys, hxs, hys, hsame⟩
  rw [hmemory, Option.some.injEq] at hxs
  rw [hidb, Option.some.injEq] at hys
  subst hxs hys
  simpa using hsame (JsString.ofString "/tasks/1",
    [(JsString.ofString "done", .bool true)])

end Collabswarm.Index
