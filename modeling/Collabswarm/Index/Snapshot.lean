import Collabswarm.Index.IndexStorage

/-!
# Snapshots as objects that can be written to

The extracted fields of an index share objects with the snapshot that they were
taken from, and later fields are written into these objects.  An object is a
kind with own properties here: an array may get properties beyond its elements,
and a date any at all.  Each call takes a snapshot of its own, so no object of
one call is identical to an object of another.  Properties that objects inherit
are left out.
-/

namespace Collabswarm.Index

/-- A value that is no object. -/
inductive Primitive where
  | undefined
  | null
  | bool (b : Bool)
  | num (x : JsNumber)
  | str (s : JsString)
deriving DecidableEq

/-- What tells objects with the same own properties apart. -/
inductive ObjectKind where
  | plain
  | array (length : ℕ)
  | date (time : JsNumber)
deriving DecidableEq

/-- `object instanceof Date`. -/
def ObjectKind.isDate : ObjectKind → Bool
  | .date _ => true
  | _ => false

/-- A value with everything below it. -/
inductive Node where
  | prim (p : Primitive)
  | object (kind : ObjectKind) (props : List (JsString × Node))

namespace Node

open InsertionMap (setEntries)

/-- `typeof node === 'object' && node !== null`. -/
def isObject : Node → Bool
  | .prim _ => false
  | .object _ _ => true

/-- The own properties that `Object.keys` lists. -/
def props : Node → List (JsString × Node)
  | .prim _ => []
  | .object _ props => props

/-- An own property that is not listed: the length of an array. -/
def unlisted : ObjectKind → JsString → Primitive
  | .array length, name =>
      if name = Value.lengthName then .num (.finite length) else .undefined
  | _, _ => .undefined

/-- Read a property. -/
def get : Node → JsString → Node
  | .object kind props, name =>
      (props.lookup name).getD (.prim (unlisted kind name))
  | .prim _, _ => .prim .undefined

/-- `extractField`. -/
def extractField : Node → List JsString → Node
  | current, [] => current
  | .object kind props, segment :: rest =>
      extractField ((Node.object kind props).get segment) rest
  | .prim _, _ :: _ => .prim .undefined

/-! ## Writing -/

/-- The number that an array index stands for. -/
def arrayIndex? (name : JsString) : Option ℕ :=
  let i := name.foldl (fun n u => 10 * n + (u.toNat - 0x30)) 0
  if Value.indexName i = name ∧ i < 2 ^ 32 - 1 then some i else none

/-- The kind after a property was added: a new index may make an array
longer. -/
def kindAdding (name : JsString) : ObjectKind → ObjectKind
  | .array length =>
      match arrayIndex? name with
      | some i => .array (max length (i + 1))
      | none => .array length
  | kind => kind

/-- The length of an array is written. -/
def isLength (name : JsString) : ObjectKind → Bool
  | .array _ => name = Value.lengthName
  | _ => false

/-- `array.length = value`.  A length is only ever set to itself or to what is
no length, which throws. -/
def assignLength (kind : ObjectKind) (props : List (JsString × Node)) :
    Node → Option Node
  | .prim p =>
      if unlisted kind Value.lengthName = p then some (.object kind props)
      else none
  | .object _ _ => none

/-- `node[name] = value`. -/
def assign (kind : ObjectKind) (props : List (JsString × Node))
    (name : JsString) (value : Node) : Option Node :=
  if (props.lookup name).isSome then
    some (.object kind (setEntries name value props))
  else if isLength name kind then assignLength kind props value
  else some (.object (kindAdding name kind) (setEntries name value props))

/-- A new object. -/
def empty : Node := .object .plain []

/-- The part of `_setNestedField` behind the first step into an object of the
snapshot; `none` where it throws. -/
def setNestedField (value : Node) : List JsString → Node → Option Node
  | [], node => some node
  | _ :: _, .prim p => some (.prim p)
  | [segment], .object kind props => assign kind props segment value
  | segment :: next :: rest, .object kind props => do
      let current := (Node.object kind props).get segment
      let child ← setNestedField value (next :: rest)
        (if current.isObject then current else empty)
      assign kind props segment child

/-- The path is there: objects on the way and an own property at its end. -/
def Present : List JsString → Node → Prop
  | [], _ => True
  | _ :: _, .prim _ => False
  | [name], .object kind props =>
      (props.lookup name).isSome ∨ isLength name kind = true
  | name :: next :: rest, .object _ props =>
      ∃ child, props.lookup name = some child ∧ Present (next :: rest) child

theorem get_of_lookup {kind : ObjectKind} {props : List (JsString × Node)}
    {name : JsString} {value : Node} (h : props.lookup name = some value) :
    (Node.object kind props).get name = value := by
  rw [get, h]
  rfl

theorem isObject_of_present {node : Node} {name : JsString}
    {rest : List JsString} (h : Present (name :: rest) node) :
    node.isObject = true := by
  cases node with
  | prim p => cases rest <;> exact absurd h (by simp [Present])
  | object kind props => rfl

theorem assign_self {kind : ObjectKind} {props : List (JsString × Node)}
    {name : JsString} {value : Node} (h : props.lookup name = some value) :
    assign kind props name value = some (.object kind props) := by
  rw [assign, h, InsertionMap.setEntries_self h]
  rfl

theorem assign_length {kind : ObjectKind} {props : List (JsString × Node)}
    {name : JsString} (hlookup : props.lookup name = none)
    (h : isLength name kind = true) :
    assign kind props name (.prim (unlisted kind name)) =
      some (.object kind props) := by
  rw [assign, hlookup, if_neg (by simp), if_pos h]
  cases kind with
  | plain => cases h
  | date time => cases h
  | array length =>
      rw [isLength, decide_eq_true_eq] at h
      rw [h, assignLength, if_pos rfl]

/-- Writing back what was extracted changes nothing where the path is there. -/
theorem setNestedField_extractField :
    ∀ (path : List JsString) (node : Node), Present path node →
      setNestedField (node.extractField path) path node = some node
  | [], node, _ => by rw [setNestedField]
  | _ :: _, .prim p, _ => by rw [setNestedField]
  | [name], .object kind props, h => by
      rw [setNestedField, extractField, extractField]
      rcases hlookup : props.lookup name with _ | value
      · rw [Present, hlookup] at h
        rw [get, hlookup]
        exact assign_length hlookup (h.resolve_left (by simp))
      · rw [get_of_lookup hlookup]
        exact assign_self hlookup
  | name :: next :: rest, .object kind props, h => by
      rw [Present] at h
      obtain ⟨child, hlookup, hchild⟩ := h
      have hwritten := setNestedField_extractField (next :: rest) child hchild
      rw [setNestedField, extractField, get_of_lookup hlookup,
        if_pos (isObject_of_present hchild), hwritten]
      exact assign_self hlookup

theorem exists_lookup {props : List (JsString × Node)} {name : JsString}
    (h : name ∈ props.map Prod.fst) :
    ∃ value, props.lookup name = some value := by
  rcases hlookup : props.lookup name with _ | value
  · rw [List.lookup_eq_none_iff] at hlookup
    obtain ⟨p, hp, rfl⟩ := List.mem_map.1 h
    exact absurd (hlookup p hp) (by simp)
  · exact ⟨value, rfl⟩

theorem mem_map_fst_of_lookup {props : List (JsString × Node)}
    {name : JsString} {value : Node} (h : props.lookup name = some value) :
    name ∈ props.map Prod.fst :=
  List.mem_map_of_mem (InsertionMap.mem_of_lookup h)

/-! ## Distinct keys -/

/-- Every object has each of its keys once. -/
inductive Distinct : Node → Prop
  | prim (p : Primitive) : Distinct (.prim p)
  | object {kind : ObjectKind} {props : List (JsString × Node)} :
      (props.map Prod.fst).Nodup → (∀ e ∈ props, Distinct e.2) →
      Distinct (.object kind props)

theorem distinct_empty : Distinct empty := .object List.nodup_nil (by simp)

theorem Distinct.get {node : Node} (h : node.Distinct) (name : JsString) :
    (node.get name).Distinct := by
  cases h with
  | prim p => exact .prim _
  | @object kind props _ hbelow =>
      rw [Node.get]
      rcases hlookup : props.lookup name with _ | value
      · exact .prim _
      · exact hbelow _ (InsertionMap.mem_of_lookup hlookup)

theorem Distinct.extractField :
    ∀ {path : List JsString} {node : Node}, node.Distinct →
      (node.extractField path).Distinct
  | [], _, h => by
      rw [Node.extractField]
      exact h
  | _ :: _, .prim p, _ => .prim _
  | segment :: rest, .object kind props, h => by
      rw [Node.extractField]
      exact (h.get segment).extractField

theorem Distinct.setEntries {kind kind' : ObjectKind}
    {props : List (JsString × Node)} {name : JsString} {value : Node}
    (h : (Node.object kind props).Distinct) (hvalue : value.Distinct) :
    (Node.object kind' (setEntries name value props)).Distinct := by
  cases h with
  | object hnodup hbelow =>
      refine .object (InsertionMap.nodup_setEntries name value hnodup) ?_
      intro e he
      rcases InsertionMap.mem_setEntries he with rfl | he
      · exact hvalue
      · exact hbelow e he

theorem Distinct.assign {kind : ObjectKind} {props : List (JsString × Node)}
    {name : JsString} {value node : Node}
    (h : (Node.object kind props).Distinct) (hvalue : value.Distinct)
    (hassign : assign kind props name value = some node) :
    node.Distinct := by
  rw [Node.assign] at hassign
  split at hassign
  · cases hassign
    exact h.setEntries hvalue
  · split at hassign
    · cases value with
      | prim p =>
          rw [assignLength] at hassign
          split at hassign
          · cases hassign
            exact h
          · cases hassign
      | object kind' props' => cases hassign
    · cases hassign
      exact h.setEntries hvalue

/-- Writing keeps the keys distinct. -/
theorem Distinct.setNestedField {value : Node} (hvalue : value.Distinct) :
    ∀ {path : List JsString} {node written : Node}, node.Distinct →
      setNestedField value path node = some written → written.Distinct
  | [], _, _, h, hset => by
      rw [Node.setNestedField] at hset
      cases hset
      exact h
  | _ :: _, .prim p, _, h, hset => by
      rw [Node.setNestedField] at hset
      cases hset
      exact h
  | [segment], .object kind props, _, h, hset => by
      rw [Node.setNestedField] at hset
      exact h.assign hvalue hset
  | segment :: next :: rest, .object kind props, _, h, hset => by
      rw [Node.setNestedField, Option.bind_eq_bind,
        Option.bind_eq_some_iff] at hset
      obtain ⟨child, hchild, hassign⟩ := hset
      refine h.assign (Distinct.setNestedField hvalue ?_ hchild) hassign
      split
      · exact h.get segment
      · exact distinct_empty

/-- The snapshot of a document. -/
structure Snapshot where
  node : Node
  distinct : node.Distinct

/-! ## Comparing -/

/-- What the comparison of one property finds without looking into objects. -/
def settled : Node → Node → Option Bool
  | .object (.date t) _, .object (.date t') _ =>
      some (decide (t ≠ .nan ∧ t = t'))
  | .object _ _, .object _ _ => none
  | .prim p, .prim q => some (decide (p = q ∧ p ≠ .num .nan))
  | _, _ => some false

mutual

/-- `_fieldsEqual`. -/
def fieldsEqual : Node → Node → Bool
  | .prim _, b => decide (0 = b.props.length)
  | .object _ props, b =>
      decide (props.length = b.props.length) && propsEqual props b

/-- The loop of `_fieldsEqual` over the keys. -/
def propsEqual : List (JsString × Node) → Node → Bool
  | [], _ => true
  | (name, va) :: rest, b =>
      (match settled va (b.get name) with
        | some equal => equal
        | none => fieldsEqual va (b.get name)) && propsEqual rest b

end

/-- The comparison of one property. -/
def propertyEqual (va vb : Node) : Bool :=
  match settled va vb with
  | some equal => equal
  | none => fieldsEqual va vb

theorem propsEqual_eq_true_iff {b : Node} :
    ∀ {props : List (JsString × Node)}, propsEqual props b = true ↔
      ∀ p ∈ props, propertyEqual p.2 (b.get p.1) = true := by
  intro props
  induction props with
  | nil => simp [propsEqual]
  | cons p props ih =>
      obtain ⟨name, va⟩ := p
      rw [propsEqual, Bool.and_eq_true, ih, List.forall_mem_cons]
      rfl

mutual

/-- The same data: the same keys with the same data, in objects of the same
kind. -/
def SameData : Node → Node → Prop
  | .prim p, b => b = .prim p
  | .object kind props, b => ∃ props', b = .object kind props' ∧
      (∀ name ∈ props'.map Prod.fst, name ∈ props.map Prod.fst) ∧
      SameProps props props'

/-- Every property is there with the same data. -/
def SameProps : List (JsString × Node) → List (JsString × Node) → Prop
  | [], _ => True
  | (name, v) :: props, props' =>
      (∃ w, props'.lookup name = some w ∧ SameData v w) ∧ SameProps props props'

end

mutual

/-- Wherever both sides have an object, the objects have the same kind and the
same keys; under a date everything is the same. -/
def Alike : Node → Node → Prop
  | .object kind props, .object kind' props' =>
      kind = kind' ∧
      (∀ name, name ∈ props.map Prod.fst ↔ name ∈ props'.map Prod.fst) ∧
      if kind.isDate then SameProps props props' else PropsAlike props props'
  | _, _ => True

/-- Properties of the same name are alike. -/
def PropsAlike : List (JsString × Node) → List (JsString × Node) → Prop
  | [], _ => True
  | (name, v) :: props, props' =>
      (∀ w, props'.lookup name = some w → Alike v w) ∧ PropsAlike props props'

end

/-- The difference of two objects can be seen: another number of keys, or a
property that is another primitive value, a primitive value on one side only,
another date, or two objects whose difference can be seen. -/
inductive VisiblyDiffer : Node → Node → Prop
  | keys {a b : Node} : a.props.length ≠ b.props.length → VisiblyDiffer a b
  | primitive {a b v : Node} {name : JsString} : (name, v) ∈ a.props →
      v.isObject = false ∨ (b.get name).isObject = false →
      (∀ p, v = .prim p → b.get name = .prim p → p = .num .nan) →
      VisiblyDiffer a b
  | time {a b : Node} {name : JsString} {t t' : JsNumber}
      {props props' : List (JsString × Node)} :
      (name, .object (.date t) props) ∈ a.props →
      b.get name = .object (.date t') props' → t = .nan ∨ t ≠ t' →
      VisiblyDiffer a b
  | inside {a b v : Node} {name : JsString} : (name, v) ∈ a.props →
      settled v (b.get name) = none → VisiblyDiffer v (b.get name) →
      VisiblyDiffer a b

mutual

/-- A value with distinct keys has the same data as itself. -/
theorem sameData_self : ∀ {a : Node}, a.Distinct → SameData a a
  | .prim p, _ => rfl
  | .object kind props, h => by
      cases h with
      | object hnodup hbelow =>
          refine ⟨props, rfl, fun _ hname => hname, ?_⟩
          refine sameProps_self fun name v hmem => ⟨?_, hbelow _ hmem⟩
          exact InsertionMap.lookup_of_mem hnodup hmem

theorem sameProps_self : ∀ {props props' : List (JsString × Node)},
    (∀ name v, (name, v) ∈ props →
      props'.lookup name = some v ∧ v.Distinct) → SameProps props props'
  | [], _, _ => trivial
  | (name, v) :: rest, props', h => by
      obtain ⟨hlookup, hv⟩ := h name v List.mem_cons_self
      refine ⟨⟨v, hlookup, sameData_self hv⟩, sameProps_self ?_⟩
      intro name' v' hmem
      exact h name' v' (List.mem_cons_of_mem _ hmem)

end

/-! ### What the comparison tells apart -/

theorem propertyEqual_prim {p : Primitive} {w : Node} :
    propertyEqual (.prim p) w = true ↔ w = .prim p ∧ p ≠ .num .nan := by
  cases w with
  | prim q =>
      simp only [propertyEqual, settled, decide_eq_true_eq, prim.injEq]
      constructor
      · rintro ⟨rfl, hnan⟩
        exact ⟨rfl, hnan⟩
      · rintro ⟨rfl, hnan⟩
        exact ⟨rfl, hnan⟩
  | object kind props =>
      simp [propertyEqual, settled]

theorem not_propertyEqual_object {kind : ObjectKind}
    {props : List (JsString × Node)} (p : Primitive) :
    propertyEqual (.object kind props) (.prim p) = false := by
  cases kind <;> rfl

/-- Two objects are compared as dates, or by their properties. -/
theorem propertyEqual_object (kind kind' : ObjectKind)
    (props props' : List (JsString × Node)) :
    (∃ t t', kind = .date t ∧ kind' = .date t' ∧
      (propertyEqual (.object kind props) (.object kind' props') = true ↔
        t ≠ .nan ∧ t = t')) ∨
    (settled (.object kind props) (.object kind' props') = none ∧
      propertyEqual (.object kind props) (.object kind' props') =
        fieldsEqual (.object kind props) (.object kind' props')) := by
  cases kind with
  | plain => exact Or.inr ⟨rfl, rfl⟩
  | array length => exact Or.inr ⟨rfl, rfl⟩
  | date t =>
      cases kind' with
      | plain => exact Or.inr ⟨rfl, rfl⟩
      | array length => exact Or.inr ⟨rfl, rfl⟩
      | date t' =>
          refine Or.inl ⟨t, t', rfl, rfl, ?_⟩
          simp [propertyEqual, settled]

/-- A difference that can be seen is found. -/
theorem VisiblyDiffer.fieldsEqual_eq_false {a b : Node}
    (h : VisiblyDiffer a b) : fieldsEqual a b = false := by
  have hprops : ∀ {a b v : Node} {name : JsString}, (name, v) ∈ a.props →
      propertyEqual v (b.get name) = false → fieldsEqual a b = false := by
    intro a b v name hmem hne
    cases a with
    | prim p => cases hmem
    | object kind props =>
        rw [fieldsEqual, Bool.and_eq_false_iff]
        right
        rw [← Bool.not_eq_true, propsEqual_eq_true_iff]
        intro hall
        exact absurd (hall _ hmem) (by simp [hne])
  induction h with
  | @keys a b hlength =>
      cases a with
      | prim p =>
          rw [fieldsEqual]
          exact decide_eq_false hlength
      | object kind ps =>
          have hcount : decide (ps.length = b.props.length) = false :=
            decide_eq_false hlength
          rw [fieldsEqual, hcount, Bool.false_and]
  | @primitive a b v name hmem hprim hne =>
      refine hprops hmem ?_
      rw [← Bool.not_eq_true]
      intro hequal
      cases v with
      | prim p =>
          obtain ⟨hget, hnan⟩ := propertyEqual_prim.1 hequal
          exact hnan (hne p rfl hget)
      | object kind ps =>
          have hget := hprim.resolve_left (by simp [isObject])
          rcases hb : b.get name with p | ⟨kind', ps'⟩
          · rw [hb, not_propertyEqual_object] at hequal
            cases hequal
          · rw [hb] at hget
            cases hget
  | @time a b name t t' ps ps' hmem hget hne =>
      refine hprops hmem ?_
      rw [hget]
      have hcompare : propertyEqual (.object (.date t) ps)
          (.object (.date t') ps') = decide (t ≠ .nan ∧ t = t') := rfl
      rw [hcompare, decide_eq_false_iff_not]
      rintro ⟨hnan, heq⟩
      exact hne.elim hnan fun h => h heq
  | @inside a b v name hmem hnone _ ih =>
      refine hprops hmem ?_
      rw [propertyEqual, hnone]
      exact ih

mutual

/-- What the comparison finds different can be seen. -/
theorem visiblyDiffer_of_fieldsEqual : ∀ a b : Node,
    fieldsEqual a b = false → VisiblyDiffer a b
  | .prim p, b, h => by
      rw [fieldsEqual, decide_eq_false_iff_not] at h
      exact .keys h
  | .object kind props, b, h => by
      rw [fieldsEqual, Bool.and_eq_false_iff, decide_eq_false_iff_not] at h
      rcases h with hlength | hprops
      · exact .keys hlength
      · exact propsDiffer_of_propsEqual props b hprops (.object kind props)
          fun _ hp => hp

theorem propsDiffer_of_propsEqual : ∀ (props : List (JsString × Node))
    (b : Node), propsEqual props b = false →
      ∀ a : Node, (∀ p ∈ props, p ∈ a.props) → VisiblyDiffer a b
  | [], b, h, a, _ => by cases h
  | (name, va) :: rest, b, h, a, hsub => by
      have hmem := hsub _ List.mem_cons_self
      rw [propsEqual, Bool.and_eq_false_iff] at h
      rcases h with hequal | hrest
      · change propertyEqual va (b.get name) = false at hequal
        cases va with
        | prim p =>
            refine .primitive hmem (Or.inl rfl) fun q hp hget => ?_
            rcases hp
            by_contra hnan
            rw [propertyEqual_prim.2 ⟨hget, hnan⟩] at hequal
            cases hequal
        | object kind props =>
            rcases hget : b.get name with q | ⟨kind', props'⟩
            · exact .primitive hmem (Or.inr (by rw [hget]; rfl))
                fun p hp => by cases hp
            rw [hget] at hequal
            rcases propertyEqual_object kind kind' props props' with
              ⟨t, t', rfl, rfl, hiff⟩ | ⟨hnone, hfields⟩
            · refine .time hmem hget ?_
              by_contra hsame
              rw [not_or, not_not] at hsame
              rw [hiff.2 hsame] at hequal
              cases hequal
            · rw [hfields] at hequal
              refine .inside hmem (by rw [hget]; exact hnone) ?_
              rw [hget]
              exact visiblyDiffer_of_fieldsEqual (.object kind props) _ hequal
      · exact propsDiffer_of_propsEqual rest b hrest a
          fun p hp => hsub p (List.mem_cons_of_mem _ hp)

end

mutual

/-- Objects that are alike and compare as equal have the same data. -/
theorem sameData_of_alike : ∀ (kind : ObjectKind)
    (props : List (JsString × Node)) (kind' : ObjectKind)
    (props' : List (JsString × Node)),
    Alike (.object kind props) (.object kind' props') →
      fieldsEqual (.object kind props) (.object kind' props') = true →
        SameData (.object kind props) (.object kind' props')
  | kind, props, kind', props', halike, hequal => by
      rw [Alike] at halike
      obtain ⟨rfl, hkeys, hprops⟩ := halike
      rw [fieldsEqual, Bool.and_eq_true] at hequal
      refine ⟨props', rfl, fun name => (hkeys name).2, ?_⟩
      cases kind with
      | date t => exact hprops
      | plain =>
          exact sameProps_of_alike props _ props'
            (fun name => (hkeys name).1) hprops hequal.2
      | array length =>
          exact sameProps_of_alike props _ props'
            (fun name => (hkeys name).1) hprops hequal.2

theorem sameProps_of_alike : ∀ (props : List (JsString × Node))
    (kind : ObjectKind) (props' : List (JsString × Node)),
    (∀ name ∈ props.map Prod.fst, name ∈ props'.map Prod.fst) →
      PropsAlike props props' → propsEqual props (.object kind props') = true →
        SameProps props props'
  | [], kind, props', _, _, _ => trivial
  | (name, v) :: rest, kind, props', hkeys, halike, hequal => by
      obtain ⟨hv, hrest⟩ := halike
      rw [propsEqual, Bool.and_eq_true] at hequal
      obtain ⟨hvalue, hothers⟩ := hequal
      obtain ⟨w, hw⟩ := exists_lookup (hkeys name List.mem_cons_self)
      have hvw := hv w hw
      rw [get_of_lookup hw] at hvalue
      refine ⟨⟨w, hw, ?_⟩, sameProps_of_alike rest kind props'
        (fun n hn => hkeys n (List.mem_cons_of_mem _ hn)) hrest hothers⟩
      change propertyEqual v w = true at hvalue
      cases v with
      | prim p => exact (propertyEqual_prim.1 hvalue).1
      | object k ps =>
          cases w with
          | prim q =>
              rw [not_propertyEqual_object] at hvalue
              cases hvalue
          | object k' ps' =>
              rcases propertyEqual_object k k' ps ps' with
                ⟨t, t', rfl, rfl, -⟩ | ⟨-, hfields⟩
              · -- dates: what is under them was required to be the same
                rw [Alike] at hvw
                obtain ⟨hkind, hsame, hprops⟩ := hvw
                cases hkind
                exact ⟨ps', rfl, fun n => (hsame n).2, hprops⟩
              · rw [hfields] at hvalue
                exact sameData_of_alike k ps k' ps' hvw hvalue

end

mutual

/-- The same data is alike. -/
theorem alike_of_sameData : ∀ a b : Node, SameData a b → Alike a b
  | .prim p, b, _ => by
      rw [Alike]
      · trivial
      · rintro kind props kind' props' h
        cases h
  | .object kind props, b, h => by
      obtain ⟨props', rfl, hkeys, hprops⟩ := h
      obtain ⟨hnames, halike⟩ := propsAlike_of_sameProps props props' hprops
      rw [Alike]
      refine ⟨rfl, fun name => ⟨hnames name, hkeys name⟩, ?_⟩
      cases kind with
      | date t => exact hprops
      | plain => exact halike
      | array length => exact halike

theorem propsAlike_of_sameProps : ∀ props props' : List (JsString × Node),
    SameProps props props' →
      (∀ name ∈ props.map Prod.fst, name ∈ props'.map Prod.fst) ∧
        PropsAlike props props'
  | [], props', _ => ⟨by simp, trivial⟩
  | (name, v) :: rest, props', h => by
      obtain ⟨⟨w, hw, hvw⟩, hrest⟩ := h
      obtain ⟨hnames, halike⟩ := propsAlike_of_sameProps rest props' hrest
      refine ⟨?_, fun w' hw' => ?_, halike⟩
      · rw [List.map_cons, List.forall_mem_cons]
        exact ⟨mem_map_fst_of_lookup hw, hnames⟩
      · rw [hw] at hw'
        cases hw'
        exact alike_of_sameData v w hvw

end

/-- Objects that compare as equal have the same data if and only if they are
alike, or a difference can be seen. -/
theorem fieldsEqual_sound_iff (kind kind' : ObjectKind)
    (props props' : List (JsString × Node)) :
    (fieldsEqual (.object kind props) (.object kind' props') = true →
      SameData (.object kind props) (.object kind' props')) ↔
    Alike (.object kind props) (.object kind' props') ∨
      VisiblyDiffer (.object kind props) (.object kind' props') := by
  constructor
  · intro hsound
    rcases hequal : fieldsEqual (.object kind props)
      (.object kind' props') with _ | _
    · exact Or.inr (visiblyDiffer_of_fieldsEqual _ _ hequal)
    · exact Or.inl (alike_of_sameData _ _ (hsound hequal))
  · rintro (halike | hdiffer) hequal
    · exact sameData_of_alike kind props kind' props' halike hequal
    · rw [hdiffer.fieldsEqual_eq_false] at hequal
      cases hequal

end Node

end Collabswarm.Index
