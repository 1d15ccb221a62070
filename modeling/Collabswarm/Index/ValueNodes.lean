import Collabswarm.Index.Snapshot

/-!
# Field values as nodes

Field values identify their objects, the nodes of a snapshot do not.  Two values
that share no object are compared by `_fieldsEqual` as their nodes are, so the
model with identities and the model of incremental updates describe the same
comparison.
-/

namespace Collabswarm.Index

namespace Value

mutual

/-- The value without the identities of its objects. -/
def toNode : Value → Node
  | .undefined => .prim .undefined
  | .null => .prim .null
  | .bool b => .prim (.bool b)
  | .num x => .prim (.num x)
  | .str s => .prim (.str s)
  | .date _ time => .object (.date time) []
  | .arr _ elements =>
      .object (.array elements.length) (elementsToProps 0 elements)
  | .obj _ members => .object .plain (membersToProps members)

/-- The elements of an array from an index on. -/
def elementsToProps (i : ℕ) : List Value → List (JsString × Node)
  | [] => []
  | x :: xs => (indexName i, toNode x) :: elementsToProps (i + 1) xs

/-- The members of an object. -/
def membersToProps : List (JsString × Value) → List (JsString × Node)
  | [] => []
  | (name, x) :: ms => (name, toNode x) :: membersToProps ms

end

mutual

/-- The identities of the objects in a value. -/
def refs : Value → List ℕ
  | .date ref _ => [ref]
  | .arr ref elements => ref :: elementsRefs elements
  | .obj ref members => ref :: membersRefs members
  | _ => []

/-- The identities of the objects in the elements. -/
def elementsRefs : List Value → List ℕ
  | [] => []
  | x :: xs => refs x ++ elementsRefs xs

/-- The identities of the objects in the members. -/
def membersRefs : List (JsString × Value) → List ℕ
  | [] => []
  | (_, x) :: ms => refs x ++ membersRefs ms

end

theorem indexName_ne_lengthName (i : ℕ) : indexName i ≠ lengthName := by
  intro h
  have hdigits := congrArg JsString.scalars h
  rw [indexName, lengthName, JsString.ofString, JsString.scalars_ofChars,
    JsString.scalars_ofChars] at hdigits
  have hmem : 'l' ∈ Nat.toDigits 10 i := by rw [hdigits]; decide
  exact absurd (Nat.isDigit_of_mem_toDigits (by decide) (by decide) hmem)
    (by decide)

theorem length_elementsToProps (i : ℕ) (elements : List Value) :
    (elementsToProps i elements).length = elements.length := by
  induction elements generalizing i with
  | nil => rfl
  | cons x xs ih => rw [elementsToProps, List.length_cons, ih, List.length_cons]

theorem length_membersToProps (members : List (JsString × Value)) :
    (membersToProps members).length = members.length := by
  induction members with
  | nil => rfl
  | cons m ms ih =>
      rw [membersToProps, List.length_cons, ih, List.length_cons]

theorem length_props_toNode (v : Value) :
    v.toNode.props.length = v.keyCount := by
  cases v with
  | arr ref elements => exact length_elementsToProps 0 elements
  | obj ref members => exact length_membersToProps members
  | _ => rfl

theorem lookup_membersToProps (members : List (JsString × Value))
    (name : JsString) :
    (membersToProps members).lookup name =
      (members.lookup name).map toNode := by
  induction members with
  | nil => rfl
  | cons m ms ih =>
      obtain ⟨name', x⟩ := m
      rw [membersToProps, InsertionMap.lookup_cons_ite,
        InsertionMap.lookup_cons_ite, ih]
      split
      · rfl
      · rfl

theorem lookup_elementsToProps (name : JsString) (elements : List Value)
    (i : ℕ) :
    (elementsToProps i elements).lookup name =
      ((elements.zipIdx i).find? fun e => indexName e.2 = name).map
        fun e => e.1.toNode := by
  induction elements generalizing i with
  | nil => rfl
  | cons x xs ih =>
      rw [elementsToProps, InsertionMap.lookup_cons_ite, ih, List.zipIdx_cons,
        List.find?_cons]
      by_cases hname : name = indexName i
      · simp [hname]
      · simp [hname, Ne.symm hname]

/-- Reading an own property. -/
theorem toNode_member (v : Value) (name : JsString) :
    (v.member name).toNode = v.toNode.get name := by
  cases v with
  | arr ref elements =>
      rw [member, toNode, Node.get, lookup_elementsToProps]
      split
      · rename_i hname
        subst hname
        have hnone : (elements.zipIdx.find? fun e =>
            decide (indexName e.2 = lengthName)) = none := by
          rw [List.find?_eq_none]
          intro e _
          simp [indexName_ne_lengthName]
        rw [hnone]
        rfl
      · rename_i hname
        split
        · rename_i e hfound
          rw [hfound]
          rfl
        · rename_i hfound
          rw [hfound, Node.unlisted, if_neg hname]
          rfl
  | obj ref members =>
      rw [member, toNode, Node.get, lookup_membersToProps]
      cases members.lookup name with
      | none => rfl
      | some x => rfl
  | _ => rfl

theorem refs_subset_elementsRefs {x : Value} {elements : List Value}
    (h : x ∈ elements) : x.refs ⊆ elementsRefs elements := by
  induction elements with
  | nil => cases h
  | cons y ys ih =>
      rw [elementsRefs]
      rcases List.mem_cons.1 h with rfl | h
      · exact List.subset_append_left _ _
      · exact List.Subset.trans (ih h) (List.subset_append_right _ _)

theorem refs_subset_membersRefs {name : JsString} {x : Value}
    {members : List (JsString × Value)} (h : (name, x) ∈ members) :
    x.refs ⊆ membersRefs members := by
  induction members with
  | nil => cases h
  | cons m ms ih =>
      obtain ⟨name', y⟩ := m
      rw [membersRefs]
      rcases List.mem_cons.1 h with heq | h
      · cases heq
        exact List.subset_append_left _ _
      · exact List.Subset.trans (ih h) (List.subset_append_right _ _)

theorem refs_member_subset (v : Value) (name : JsString) :
    (v.member name).refs ⊆ v.refs := by
  cases v with
  | arr ref elements =>
      rw [member, refs]
      refine List.subset_cons_of_subset _ ?_
      split
      · exact List.nil_subset _
      · split
        · rename_i e hfound
          have hmem := List.mem_of_find?_eq_some hfound
          exact refs_subset_elementsRefs (List.fst_mem_of_mem_zipIdx hmem)
        · exact List.nil_subset _
  | obj ref members =>
      rw [member, refs]
      refine List.subset_cons_of_subset _ ?_
      rcases hlookup : members.lookup name with _ | x
      · exact List.nil_subset _
      · exact refs_subset_membersRefs (InsertionMap.mem_of_lookup hlookup)
  | _ => exact List.nil_subset _

theorem mem_refs {v : Value} {r : ℕ} (h : v.ref? = some r) : r ∈ v.refs := by
  cases v with
  | date ref time =>
      cases h
      exact List.mem_singleton_self _
  | arr ref elements =>
      cases h
      exact List.mem_cons_self
  | obj ref members =>
      cases h
      exact List.mem_cons_self
  | _ => cases h

theorem exists_ref_of_isObject {v : Value} (h : v.isObject = true) :
    ∃ r, v.ref? = some r := by
  cases v with
  | date ref time => exact ⟨ref, rfl⟩
  | arr ref elements => exact ⟨ref, rfl⟩
  | obj ref members => exact ⟨ref, rfl⟩
  | _ => cases h

/-- Values that share no object are not the same object. -/
theorem strictEq_of_disjoint {v w : Value} (h : List.Disjoint v.refs w.refs) :
    v.strictEq w = v.primitiveEq w := by
  have hidentical : v.identical w = false := by
    rw [← Bool.not_eq_true, identical, Bool.and_eq_true, Bool.and_eq_true,
      decide_eq_true_eq]
    rintro ⟨⟨hv, -⟩, hsame⟩
    obtain ⟨r, hr⟩ := exists_ref_of_isObject hv
    exact h (mem_refs hr) (mem_refs (hsame ▸ hr))
  rw [strictEq, hidentical, Bool.or_false]

/-- Values that share no object are told apart as their nodes are. -/
theorem settled_toNode {v w : Value} (h : List.Disjoint v.refs w.refs) :
    settled v w = Node.settled v.toNode w.toNode := by
  have hstrict := strictEq_of_disjoint h
  clear h
  cases v <;> cases w <;>
    simp [settled, hstrict, primitiveEq, isObject, toNode, Node.settled]
  all_goals grind

mutual

/-- Values that share no object compare as their nodes do. -/
theorem fieldsEqual_toNode : ∀ {a b : Value}, List.Disjoint a.refs b.refs →
    a.fieldsEqual b = a.toNode.fieldsEqual b.toNode
  | .arr ref elements, b, h => by
      rw [refs, List.disjoint_cons_left] at h
      rw [fieldsEqual, toNode, Node.fieldsEqual, length_elementsToProps,
        length_props_toNode, elementsEqual_toNode elements h.2]
  | .obj ref members, b, h => by
      rw [refs, List.disjoint_cons_left] at h
      rw [fieldsEqual, toNode, Node.fieldsEqual, length_membersToProps,
        length_props_toNode, membersEqual_toNode members h.2]
  | .date ref time, b, _ => by
      simp [fieldsEqual, toNode, Node.fieldsEqual, length_props_toNode,
        Node.propsEqual]
  | .undefined, b, _ => by
      simp [fieldsEqual, toNode, Node.fieldsEqual, length_props_toNode]
  | .null, b, _ => by
      simp [fieldsEqual, toNode, Node.fieldsEqual, length_props_toNode]
  | .bool _, b, _ => by
      simp [fieldsEqual, toNode, Node.fieldsEqual, length_props_toNode]
  | .num _, b, _ => by
      simp [fieldsEqual, toNode, Node.fieldsEqual, length_props_toNode]
  | .str _, b, _ => by
      simp [fieldsEqual, toNode, Node.fieldsEqual, length_props_toNode]

theorem elementsEqual_toNode : ∀ (elements : List Value) {b : Value} {i : ℕ},
    List.Disjoint (elementsRefs elements) b.refs →
      elementsEqual i elements b =
        Node.propsEqual (elementsToProps i elements) b.toNode
  | [], _, _, _ => rfl
  | x :: xs, b, i, h => by
      rw [elementsRefs, List.disjoint_append_left] at h
      have hx : List.Disjoint x.refs (b.member (indexName i)).refs :=
        List.disjoint_of_subset_right (refs_member_subset b _) h.1
      rw [elementsEqual, elementsToProps, Node.propsEqual,
        elementsEqual_toNode xs h.2, ← toNode_member, ← settled_toNode hx]
      congr 1
      cases settled x (b.member (indexName i)) with
      | some equal => rfl
      | none => exact fieldsEqual_toNode hx

theorem membersEqual_toNode : ∀ (members : List (JsString × Value)) {b : Value},
    List.Disjoint (membersRefs members) b.refs →
      membersEqual members b = Node.propsEqual (membersToProps members) b.toNode
  | [], _, _ => rfl
  | (name, x) :: ms, b, h => by
      rw [membersRefs, List.disjoint_append_left] at h
      have hx : List.Disjoint x.refs (b.member name).refs :=
        List.disjoint_of_subset_right (refs_member_subset b _) h.1
      rw [membersEqual, membersToProps, Node.propsEqual,
        membersEqual_toNode ms h.2, ← toNode_member, ← settled_toNode hx]
      congr 1
      cases settled x (b.member name) with
      | some equal => rfl
      | none => exact fieldsEqual_toNode hx

end

end Value

end Collabswarm.Index
