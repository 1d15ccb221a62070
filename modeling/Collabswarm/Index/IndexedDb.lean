import Collabswarm.Index.Value

/-!
# Keys of an indexed database

Which values are keys, how keys are ordered, and what a key path finds in a
record, as IndexedDB specifies it.  A record is in an index only if its key
path finds a valid key.  Binary keys are left out, since no value is binary.
-/

namespace Collabswarm.Index

/-! ## Keys -/

/-- Numbers in their order; nothing is less or greater than `NaN`. -/
def JsNumber.lt : JsNumber → JsNumber → Bool
  | .negInfinity, .finite _ => true
  | .negInfinity, .posInfinity => true
  | .finite p, .finite q => decide (p < q)
  | .finite _, .posInfinity => true
  | _, _ => false

/-- Three-way comparison of numbers that are not `NaN`. -/
def JsNumber.cmp (x y : JsNumber) : Ordering :=
  if x.lt y then .lt else if y.lt x then .gt else .eq

/-- Three-way comparison of strings by code units. -/
def compareStrings (s t : JsString) : Ordering :=
  if s < t then .lt else if t < s then .gt else .eq

/-- A key. -/
inductive Key where
  | num (x : JsNumber)
  | date (time : JsNumber)
  | str (s : JsString)
  | arr (elements : List Key)

/-- Keys of different types: number < date < string < array. -/
def Key.rank : Key → ℕ
  | .num _ => 0
  | .date _ => 1
  | .str _ => 2
  | .arr _ => 3

mutual

/-- Compare two keys. -/
def Key.cmp : Key → Key → Ordering
  | .num x, .num y => x.cmp y
  | .date x, .date y => x.cmp y
  | .str s, .str t => compareStrings s t
  | .arr xs, .arr ys => Key.cmpElements xs ys
  | a, b => compare a.rank b.rank

/-- Compare the elements of two array keys. -/
def Key.cmpElements : List Key → List Key → Ordering
  | [], [] => .eq
  | [], _ :: _ => .lt
  | _ :: _, [] => .gt
  | x :: xs, y :: ys =>
      match Key.cmp x y with
      | .eq => Key.cmpElements xs ys
      | order => order

end

mutual

/-- Convert a value to a key, if it is a valid one. -/
def toKey : Value → Option Key
  | .num x => if x = .nan then none else some (.num x)
  | .date _ time => if time = .nan then none else some (.date time)
  | .str s => some (.str s)
  | .arr _ elements => (toKeys elements).map .arr
  | _ => none

/-- Convert the elements of an array. -/
def toKeys : List Value → Option (List Key)
  | [] => some []
  | v :: vs => do
      let key ← toKey v
      let keys ← toKeys vs
      some (key :: keys)

end

/-! ## Key ranges -/

/-- A range of keys, with a bound and whether it is open on either side. -/
structure KeyRange where
  lower : Option (Key × Bool)
  upper : Option (Key × Bool)

namespace KeyRange

/-- `IDBKeyRange.only`. -/
def only (key : Key) : KeyRange := ⟨some (key, false), some (key, false)⟩

/-- `IDBKeyRange.lowerBound`. -/
def lowerBound (key : Key) (isOpen : Bool) : KeyRange :=
  ⟨some (key, isOpen), none⟩

/-- `IDBKeyRange.bound`. -/
def bound (lower upper : Key) (lowerOpen upperOpen : Bool) : KeyRange :=
  ⟨some (lower, lowerOpen), some (upper, upperOpen)⟩

/-- A key is above a lower bound or at a closed one. -/
def above (bound : Key × Bool) (key : Key) : Bool :=
  match bound.1.cmp key with
  | .lt => true
  | .eq => !bound.2
  | .gt => false

/-- A key is below an upper bound or at a closed one. -/
def below (bound : Key × Bool) (key : Key) : Bool :=
  match key.cmp bound.1 with
  | .lt => true
  | .eq => !bound.2
  | .gt => false

/-- The key is in the range. -/
def contains (range : KeyRange) (key : Key) : Bool :=
  (range.lower.all fun bound => above bound key) &&
    range.upper.all fun bound => below bound key

end KeyRange

/-! ## Key paths -/

/-- Evaluate a key path, given by its identifiers, on a value.  The length of a
string is found although a string is no object. -/
def evaluateKeyPath : Value → List JsString → Option Value
  | v, [] => some v
  | .str s, name :: rest =>
      if name = Value.lengthName then
        evaluateKeyPath (.num (.finite s.length)) rest
      else none
  | v, name :: rest =>
      match v.member name with
      | .undefined => none
      | w => evaluateKeyPath w rest

/-- The length of the string that a path ends in, if its last name is the
length of a string. -/
def stringLength : Value → List JsString → Option ℕ
  | .str s, [name] => if name = Value.lengthName then some s.length else none
  | v, name :: rest =>
      if v.isObject then stringLength (v.member name) rest else none
  | _, [] => none

/-- Follow a path through objects only. -/
def resolve : Value → List JsString → Value
  | v, [] => v
  | v, name :: rest =>
      if v.isObject then resolve (v.member name) rest else .undefined

theorem member_of_not_isObject {v : Value} (h : v.isObject = false)
    (name : JsString) : v.member name = .undefined := by
  cases v with
  | arr ref elements => cases h
  | obj ref members => cases h
  | _ => rfl

theorem evaluateKeyPath_undefined_member {v : Value} {name : JsString}
    {rest : List JsString} (hstr : ∀ s, v ≠ .str s)
    (h : v.member name = .undefined) :
    evaluateKeyPath v (name :: rest) = none := by
  rw [evaluateKeyPath, h]
  exact hstr

theorem evaluateKeyPath_member {v : Value} {name : JsString}
    {rest : List JsString} (hstr : ∀ s, v ≠ .str s)
    (h : v.member name ≠ .undefined) :
    evaluateKeyPath v (name :: rest) =
      evaluateKeyPath (v.member name) rest := by
  rw [evaluateKeyPath]
  · split
    · rename_i hnone
      exact absurd hnone h
    · rfl
  · exact hstr

/-- A path that ends in the length of a string is a key path to a number, and
finds nothing through objects. -/
theorem evaluateKeyPath_of_stringLength :
    ∀ (path : List JsString) {v : Value} {n : ℕ},
      stringLength v path = some n →
      evaluateKeyPath v path = some (.num (.finite n)) ∧
        resolve v path = .undefined := by
  intro path
  induction path with
  | nil =>
      intro v n h
      cases v <;> cases h
  | cons name rest ih =>
      intro v n h
      by_cases hobject : v.isObject = true
      · have hstr : ∀ s, v ≠ .str s := by
          rintro s rfl
          cases hobject
        have hrest : stringLength (v.member name) rest = some n := by
          cases v with
          | str s => exact absurd rfl (hstr s)
          | _ => simpa [stringLength, hobject] using h
        have hmember : v.member name ≠ .undefined := by
          intro hnone
          rw [hnone] at hrest
          cases rest <;> simp [stringLength, Value.isObject] at hrest
        obtain ⟨hkey, hresolve⟩ := ih hrest
        rw [evaluateKeyPath_member hstr hmember, resolve, if_pos hobject]
        exact ⟨hkey, hresolve⟩
      · rw [resolve, if_neg hobject]
        refine ⟨?_, rfl⟩
        cases v with
        | str s =>
            cases rest with
            | nil =>
                simp only [stringLength] at h
                split at h
                · rename_i hname
                  cases h
                  simp [evaluateKeyPath, hname]
                · cases h
            | cons name' rest => simp [stringLength, Value.isObject] at h
        | date ref time => simp [Value.isObject] at hobject
        | arr ref elements => simp [Value.isObject] at hobject
        | obj ref members => simp [Value.isObject] at hobject
        | _ => simp [stringLength, Value.isObject] at h

/-- Every other key path finds what the path finds through objects, if that is
not `undefined`. -/
theorem evaluateKeyPath_of_not_stringLength :
    ∀ (path : List JsString) {v : Value}, v ≠ .undefined →
      stringLength v path = none →
      (resolve v path = .undefined → evaluateKeyPath v path = none) ∧
        (resolve v path ≠ .undefined →
          evaluateKeyPath v path = some (resolve v path)) := by
  intro path
  induction path with
  | nil =>
      intro v hv _
      simp [resolve, evaluateKeyPath, hv]
  | cons name rest ih =>
      intro v hv h
      by_cases hobject : v.isObject = true
      · have hstr : ∀ s, v ≠ .str s := by
          rintro s rfl
          cases hobject
        have hrest : stringLength (v.member name) rest = none := by
          cases v with
          | str s => exact absurd rfl (hstr s)
          | _ => simpa [stringLength, hobject] using h
        rw [resolve, if_pos hobject]
        by_cases hmember : v.member name = .undefined
        · rw [evaluateKeyPath_undefined_member hstr hmember, hmember]
          cases rest with
          | nil => simp [resolve]
          | cons name' rest => simp [resolve, Value.isObject]
        · rw [evaluateKeyPath_member hstr hmember]
          exact ih hmember hrest
      · rw [resolve, if_neg hobject]
        refine ⟨fun _ => ?_, fun hne => absurd rfl hne⟩
        by_cases hstr : ∃ s, v = .str s
        · obtain ⟨s, rfl⟩ := hstr
          by_cases hname : name = Value.lengthName
          · cases rest with
            | nil => simp [stringLength, hname] at h
            | cons name' rest =>
                simp [evaluateKeyPath, hname, Value.member]
          · simp [evaluateKeyPath, hname]
        · apply evaluateKeyPath_undefined_member
          · intro s hs
            exact hstr ⟨s, hs⟩
          · exact member_of_not_isObject (by simpa using hobject) name

/-! ## Values whose keys are in a range -/

theorem toKey_num {v : Value} {x : JsNumber} (h : toKey v = some (.num x)) :
    v = .num x ∧ x ≠ .nan := by
  cases v with
  | num y =>
      simp only [toKey] at h
      split at h
      · cases h
      · rename_i hy
        cases h
        exact ⟨rfl, hy⟩
  | date ref time =>
      simp only [toKey] at h
      split at h <;> cases h
  | arr ref elements =>
      simp only [toKey] at h
      rcases hkeys : toKeys elements with _ | keys
      · simp [hkeys] at h
      · simp [hkeys] at h
  | _ => simp [toKey] at h

theorem toKey_str {v : Value} {s : JsString} (h : toKey v = some (.str s)) :
    v = .str s := by
  cases v with
  | str t =>
      simp only [toKey] at h
      cases h
      rfl
  | num y =>
      simp only [toKey] at h
      split at h <;> cases h
  | date ref time =>
      simp only [toKey] at h
      split at h <;> cases h
  | arr ref elements =>
      simp only [toKey] at h
      rcases hkeys : toKeys elements with _ | keys
      · simp [hkeys] at h
      · simp [hkeys] at h
  | _ => simp [toKey] at h

theorem JsNumber.lt_irrefl (x : JsNumber) : x.lt x = false := by
  cases x <;> simp [JsNumber.lt]

theorem JsNumber.cmp_self (x : JsNumber) : x.cmp x = .eq := by
  rw [JsNumber.cmp, JsNumber.lt_irrefl]
  rfl

/-- A number that is neither below nor above a finite one is that number. -/
theorem JsNumber.eq_finite_of_not_lt {x : JsNumber} {q : ℚ} (hx : x ≠ .nan)
    (hlow : x.lt (.finite q) = false) (hhigh : (JsNumber.finite q).lt x = false) :
    x = .finite q := by
  cases x with
  | nan => exact absurd rfl hx
  | negInfinity => cases hlow
  | posInfinity => cases hhigh
  | finite p =>
      simp only [JsNumber.lt, decide_eq_false_iff_not, not_lt] at hlow hhigh
      rw [le_antisymm hhigh hlow]

theorem JsNumber.lt_asymm {x y : JsNumber} (h : x.lt y = true) :
    y.lt x = false := by
  cases x with
  | finite p =>
      cases y with
      | finite q =>
          simp only [JsNumber.lt, decide_eq_true_eq, decide_eq_false_iff_not,
            not_lt] at h ⊢
          exact h.le
      | _ => simp [JsNumber.lt] at h ⊢
  | _ => cases y <;> simp [JsNumber.lt] at h ⊢

theorem compareStrings_self (s : JsString) : compareStrings s s = .eq := by
  rw [compareStrings, if_neg (List.lt_irrefl s), if_neg (List.lt_irrefl s)]

theorem Key.cmp_of_rank_lt {a b : Key} (h : a.rank < b.rank) :
    a.cmp b = .lt := by
  cases a <;> cases b <;> first | rfl | (simp [Key.rank] at h)

theorem Key.cmp_of_rank_gt {a b : Key} (h : b.rank < a.rank) :
    a.cmp b = .gt := by
  cases a <;> cases b <;> first | rfl | (simp [Key.rank] at h)

/-- The key of a value of another type than a key's is outside the range of
that key alone. -/
theorem KeyRange.rank_of_contains_only {key key' : Key}
    (h : (KeyRange.only key).contains key' = true) :
    key'.rank = key.rank := by
  simp only [contains, only, Option.all_some, Bool.and_eq_true, above,
    below] at h
  obtain ⟨hlow, hhigh⟩ := h
  rcases lt_trichotomy key'.rank key.rank with hlt | heq | hgt
  · simp [Key.cmp_of_rank_gt hlt] at hlow
  · exact heq
  · simp [Key.cmp_of_rank_gt hgt] at hhigh

namespace KeyRange

/-- The range of one finite number finds that number only. -/
theorem contains_only_num {v : Value} {key : Key} {q : ℚ}
    (hkey : toKey v = some key) :
    (only (.num (.finite q))).contains key = true ↔ v = .num (.finite q) := by
  constructor
  · intro h
    have hrank := rank_of_contains_only h
    cases key with
    | num x =>
        obtain ⟨rfl, hx⟩ := toKey_num hkey
        simp only [contains, only, Option.all_some, Bool.and_eq_true, above,
          below, Key.cmp, JsNumber.cmp] at h
        obtain ⟨hlow, hhigh⟩ := h
        have hnlt : x.lt (.finite q) = false := by
          by_contra hlt
          rw [Bool.not_eq_false] at hlt
          simp [hlt, JsNumber.lt_asymm hlt] at hlow
        have hngt : (JsNumber.finite q).lt x = false := by
          by_contra hlt
          rw [Bool.not_eq_false] at hlt
          simp [hlt, hnlt] at hhigh
        rw [JsNumber.eq_finite_of_not_lt hx hnlt hngt]
    | _ => simp [Key.rank] at hrank
  · rintro rfl
    have hself : key = .num (.finite q) := by
      simpa [toKey] using hkey.symm
    rw [hself]
    simp [contains, only, above, below, Key.cmp, JsNumber.cmp_self]

/-- The range of one string finds that string only. -/
theorem contains_only_str {v : Value} {key : Key} {s : JsString}
    (hkey : toKey v = some key) :
    (only (.str s)).contains key = true ↔ v = .str s := by
  constructor
  · intro h
    have hrank := rank_of_contains_only h
    cases key with
    | str t =>
        rw [toKey_str hkey]
        simp only [contains, only, Option.all_some, Bool.and_eq_true, above,
          below, Key.cmp, compareStrings] at h
        obtain ⟨hlow, hhigh⟩ := h
        have hnlt : ¬ t < s := by
          intro hlt
          simp [hlt, List.lt_asymm hlt] at hlow
        have hngt : ¬ s < t := by
          intro hlt
          simp [hlt, hnlt] at hhigh
        rw [List.le_antisymm (List.not_lt.1 hngt) (List.not_lt.1 hnlt)]
    | _ => simp [Key.rank] at hrank
  · rintro rfl
    have hself : key = .str s := by
      simpa [toKey] using hkey.symm
    rw [hself]
    simp [contains, only, above, below, Key.cmp, compareStrings_self]

/-- Keys that are no numbers are above every number. -/
theorem contains_lowerBound_of_rank {key : Key} (hrank : 0 < key.rank)
    (x : JsNumber) (isOpen : Bool) :
    (lowerBound (.num x) isOpen).contains key = true := by
  have hlt : (Key.num x).cmp key = .lt := Key.cmp_of_rank_lt hrank
  simp [contains, lowerBound, above, hlt]

theorem contains_lowerBound_num {x y : JsNumber} {isOpen : Bool}
    (h : x.lt y = true ∨ (isOpen = false ∧ y.lt x = false)) :
    (lowerBound (.num x) isOpen).contains (.num y) = true := by
  simp only [contains, lowerBound, Option.all_some, Option.all_none,
    Bool.and_true, above, Key.cmp, JsNumber.cmp]
  rcases h with hlt | ⟨rfl, hnot⟩
  · simp [hlt]
  · by_cases hlt : x.lt y = true
    · simp [hlt]
    · simp [hlt, hnot]

/-- A closed lower bound on strings. -/
theorem above_str_iff {lower s : JsString} :
    above (.str lower, false) (.str s) = true ↔ lower ≤ s := by
  rw [← List.not_lt]
  simp only [above, Key.cmp, compareStrings]
  by_cases hlt : lower < s
  · simp [hlt, List.lt_asymm hlt]
  · by_cases hgt : s < lower
    · simp [hlt, hgt]
    · simp [hlt, hgt]

/-- An open upper bound on strings. -/
theorem below_str_iff {upper s : JsString} :
    below (.str upper, true) (.str s) = true ↔ s < upper := by
  simp only [below, Key.cmp, compareStrings]
  by_cases hlt : s < upper
  · simp [hlt]
  · by_cases hgt : upper < s
    · simp [hlt, hgt]
    · simp [hlt, hgt]

theorem above_str_of_append (lower rest : JsString) :
    above (.str lower, false) (.str (lower ++ rest)) = true :=
  above_str_iff.2 List.le_append_left

end KeyRange

end Collabswarm.Index
