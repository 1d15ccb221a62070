import Collabswarm.Index.IndexManager
import Collabswarm.Index.Snapshot

/-!
# Incremental updates of an index

`updateIndex` builds the fields of each matching index from one snapshot and
writes them unless they compare as equal to the stored fields; `rebuildIndex`
builds them from a snapshot of its own and always writes.

The fields share the objects of the snapshot.  A field whose path goes on inside
the path of an earlier field is written into the snapshot, where the later
indexes and the entries already written see it.
-/

namespace Collabswarm.Index

open InsertionMap (setEntries)

/-! ## Fields that share objects with the snapshot -/

/-- A value in the fields while they are built: a value that is no object, the
object that the snapshot has under the same path, or an object made for a
nested path. -/
inductive Slot where
  | value (p : Primitive)
  | shared
  | own (members : List (JsString × Slot))

namespace Slot

/-- The members of an object made for a nested path. -/
def ownMembers : Option Slot → List (JsString × Slot)
  | some (.own members) => members
  | _ => []

/-- The object is the snapshot's. -/
def isShared : Option Slot → Bool
  | some .shared => true
  | _ => false

/-- A value extracted from the snapshot. -/
def extracted : Node → Slot
  | .prim p => .value p
  | .object _ _ => .shared

/-- The part of `_setNestedField` outside the objects of the snapshot. -/
def setOwn (slot : Slot) :
    List JsString → List (JsString × Slot) → List (JsString × Slot)
  | [], members => members
  | [segment], members => setEntries segment slot members
  | segment :: next :: rest, members =>
      setEntries segment
        (.own (setOwn slot (next :: rest) (ownMembers (members.lookup segment))))
        members

/-- The path leads into an object of the snapshot. -/
def entersSnapshot : List JsString → List (JsString × Slot) → Bool
  | [], _ => false
  | [_], _ => false
  | segment :: next :: rest, members =>
      isShared (members.lookup segment) ||
        entersSnapshot (next :: rest) (ownMembers (members.lookup segment))

mutual

/-- The value, as the snapshot has its objects now. -/
def resolve : Slot → Node → Node
  | .value p, _ => .prim p
  | .shared, node => node
  | .own members, node => .object .plain (resolveMembers members node)

/-- The members of an object, as the snapshot has its objects now. -/
def resolveMembers : List (JsString × Slot) → Node → List (JsString × Node)
  | [], _ => []
  | (name, slot) :: members, node =>
      (name, slot.resolve (node.get name)) :: resolveMembers members node

end

end Slot

/-- Extract the fields with these paths one after the other.  The snapshot is
returned as it was left; there are no fields where a write throws. -/
def buildFields : List (List JsString) → List (JsString × Slot) → Node →
    Option (List (JsString × Slot)) × Node
  | [], fields, snapshot => (some fields, snapshot)
  | path :: paths, fields, snapshot =>
      let value := snapshot.extractField path
      if Slot.entersSnapshot path fields then
        match Node.setNestedField value path snapshot with
        | some written => buildFields paths fields written
        | none => (none, snapshot)
      else
        buildFields paths (Slot.setOwn (.extracted value) path fields) snapshot

/-- The paths of an index. -/
def IndexDefinition.paths (definition : IndexDefinition) :
    List (List JsString) :=
  definition.fields.map splitPath

/-- The own properties of a stored record. -/
abbrev Record := List (JsString × Node)

/-- The fields that an index picks from a snapshot of its own: `rebuildIndex`
stores them. -/
def extractedFields (definition : IndexDefinition) (s : Node.Snapshot) :
    Option Record :=
  let built := buildFields definition.paths [] s.node
  built.1.map (Slot.resolveMembers · built.2)

/-- The object of a record. -/
def Record.node (fields : Record) : Node := .object .plain fields

/-! ## Updating -/

/-- The registered indexes and the path of the document. -/
structure IndexedDocument where
  definitions : InsertionMap JsString IndexDefinition
  documentPath : JsString

/-- The indexes that match the path, in the order of their registration. -/
def IndexedDocument.matching (D : IndexedDocument) :
    List (JsString × IndexDefinition) :=
  D.definitions.entries.filter fun e =>
    e.2.collectionPrefix.isPrefixOf D.documentPath

/-- The loop of `updateIndex`: the entries it writes, and the snapshot as it
was left.  Where a build throws, the loop ends. -/
def updateLoop (stored : JsString → Option Record) :
    List (JsString × IndexDefinition) → Node →
      List (JsString × List (JsString × Slot)) × Node
  | [], snapshot => ([], snapshot)
  | (indexName, definition) :: todo, snapshot =>
      match buildFields definition.paths [] snapshot with
      | (none, left) => ([], left)
      | (some fields, left) =>
          let others := updateLoop stored todo left
          if (stored indexName).any fun existing => existing.node.fieldsEqual
              (Record.node (Slot.resolveMembers fields left)) then others
          else ((indexName, fields) :: others.1, others.2)

/-- `updateIndex` on the stored entries of the document.  The entries that one
call writes share the objects of its snapshot. -/
def updateIndex (D : IndexedDocument) (stored : JsString → Option Record)
    (s : Node.Snapshot) (indexName : JsString) : Option Record :=
  let done := updateLoop stored D.matching s.node
  match done.1.lookup indexName with
  | some fields => some (Slot.resolveMembers fields done.2)
  | none => stored indexName

/-- A field whose path goes on inside an object that an earlier field shares
with the snapshot has its path in the snapshot. -/
def PathsPresent (paths : List (List JsString)) (node : Node) : Prop :=
  paths.Pairwise fun earlier path => earlier <+: path → earlier ≠ path →
    (node.extractField earlier).isObject = true → node.Present path

/-- No call can write into the snapshot what another index sees: at most one
index matches, or all the paths are there. -/
def Undisturbed (D : IndexedDocument) (s : Node.Snapshot) : Prop :=
  D.matching.length ≤ 1 ∨ ∀ e ∈ D.matching, PathsPresent e.2.paths s.node

/-- The stored fields and the fields extracted from the snapshot are alike, or
their difference can be seen. -/
def Discerned (D : IndexedDocument) (stored : JsString → Option Record)
    (s : Node.Snapshot) : Prop :=
  ∀ e ∈ D.matching, ∀ existing fields, stored e.1 = some existing →
    extractedFields e.2 s = some fields →
      Node.Alike existing.node fields.node ∨
        Node.VisiblyDiffer existing.node fields.node

/-- Every matching index holds the entry that rebuilding it would store. -/
def AsRebuilt (D : IndexedDocument) (stored : JsString → Option Record)
    (s : Node.Snapshot) : Prop :=
  ∀ e ∈ D.matching, ∀ fields, extractedFields e.2 s = some fields →
    ∃ entry, stored e.1 = some entry ∧ Node.SameData entry.node fields.node

/-! ## What a build does to the snapshot -/

namespace Slot

theorem entersSnapshot_nil : ∀ path, entersSnapshot path [] = false
  | [] => rfl
  | [_] => rfl
  | _ :: next :: rest => entersSnapshot_nil (next :: rest)

theorem isShared_lookup_setEntries {segment name : JsString} {slot : Slot}
    {members : List (JsString × Slot)}
    (h : isShared ((setEntries name slot members).lookup segment) = true) :
    isShared (members.lookup segment) = true ∨
      segment = name ∧ isShared (some slot) = true := by
  rw [InsertionMap.lookup_setEntries] at h
  split at h
  · exact Or.inr ⟨‹_›, h⟩
  · exact Or.inl h

/-- After a write a path leads into the snapshot as before, or through the
object that was written. -/
theorem entersSnapshot_setOwn {slot : Slot}
    (hslot : ownMembers (some slot) = []) :
    ∀ {path written : List JsString} {members : List (JsString × Slot)},
      entersSnapshot path (setOwn slot written members) = true →
        entersSnapshot path members = true ∨
          written <+: path ∧ written ≠ path ∧ isShared (some slot) = true
  | _, [], _, h => Or.inl h
  | [], _ :: _, _, h => by cases h
  | [_], _ :: _, _, h => by cases h
  | segment :: next :: rest, [name], members, h => by
      rw [setOwn, entersSnapshot, Bool.or_eq_true] at h
      rw [entersSnapshot, Bool.or_eq_true]
      rcases h with hshared | hinside
      · rcases isShared_lookup_setEntries hshared with hbefore | ⟨rfl, hslot⟩
        · exact Or.inl (Or.inl hbefore)
        · exact Or.inr ⟨by simp, by simp, hslot⟩
      · rw [InsertionMap.lookup_setEntries] at hinside
        split at hinside
        · rw [hslot, entersSnapshot_nil] at hinside
          cases hinside
        · exact Or.inl (Or.inr hinside)
  | segment :: next :: rest, name :: name' :: names, members, h => by
      rw [setOwn, entersSnapshot, Bool.or_eq_true] at h
      rw [entersSnapshot, Bool.or_eq_true]
      rcases h with hshared | hinside
      · rcases isShared_lookup_setEntries hshared with hbefore | ⟨-, hown⟩
        · exact Or.inl (Or.inl hbefore)
        · cases hown
      · rw [InsertionMap.lookup_setEntries] at hinside
        split at hinside
        · rename_i heq
          subst heq
          rcases entersSnapshot_setOwn hslot hinside with
            hbefore | ⟨hstart, hne, hshared⟩
          · exact Or.inl (Or.inr hbefore)
          · exact Or.inr ⟨by simpa using hstart, by simpa using hne, hshared⟩
        · exact Or.inl (Or.inr hinside)

end Slot

theorem ownMembers_extracted (node : Node) :
    Slot.ownMembers (some (.extracted node)) = [] := by
  cases node <;> rfl

theorem isShared_extracted (node : Node) :
    Slot.isShared (some (.extracted node)) = node.isObject := by
  cases node <;> rfl

/-- The objects that the fields share with the snapshot were extracted with
these paths. -/
def SharedBy (paths : List (List JsString)) (node : Node)
    (fields : List (JsString × Slot)) : Prop :=
  ∀ path, Slot.entersSnapshot path fields = true →
    ∃ earlier ∈ paths, earlier <+: path ∧ earlier ≠ path ∧
      (node.extractField earlier).isObject = true

theorem SharedBy.setOwn {paths : List (List JsString)} {node : Node}
    {fields : List (JsString × Slot)} (h : SharedBy paths node fields)
    (path : List JsString) :
    SharedBy (paths ++ [path]) node
      (Slot.setOwn (.extracted (node.extractField path)) path fields) := by
  intro later hlater
  rcases Slot.entersSnapshot_setOwn (ownMembers_extracted _) hlater with
    hbefore | ⟨hstart, hne, hshared⟩
  · obtain ⟨earlier, hmem, hearlier⟩ := h later hbefore
    exact ⟨earlier, List.mem_append_left _ hmem, hearlier⟩
  · rw [isShared_extracted] at hshared
    exact ⟨path, by simp, hstart, hne, hshared⟩

/-- A build whose paths are there leaves the snapshot as it is. -/
theorem buildFields_of_present {node : Node} :
    ∀ (paths done : List (List JsString)) (fields : List (JsString × Slot)),
      PathsPresent (done ++ paths) node → SharedBy done node fields →
        ∃ built, buildFields paths fields node = (some built, node) := by
  intro paths
  induction paths with
  | nil =>
      intro done fields _ _
      exact ⟨fields, rfl⟩
  | cons path paths ih =>
      intro done fields hpresent hshared
      have hnext : PathsPresent ((done ++ [path]) ++ paths) node := by
        rwa [List.append_assoc]
      rw [buildFields]
      split
      · rename_i henters
        obtain ⟨earlier, hmem, hstart, hne, hobject⟩ := hshared path henters
        have hpath : node.Present path :=
          (List.pairwise_append.1 hpresent).2.2 earlier hmem path
            List.mem_cons_self hstart hne hobject
        rw [Node.setNestedField_extractField path node hpath]
        refine ih (done ++ [path]) fields hnext fun later hlater => ?_
        obtain ⟨earlier, hmem, hearlier⟩ := hshared later hlater
        exact ⟨earlier, List.mem_append_left _ hmem, hearlier⟩
      · exact ih (done ++ [path]) _ hnext (hshared.setOwn path)

/-- A build whose paths are there leaves the snapshot as it is. -/
theorem buildFields_eq_of_present {paths : List (List JsString)} {node : Node}
    (h : PathsPresent paths node) :
    ∃ built, buildFields paths [] node = (some built, node) := by
  refine buildFields_of_present paths [] [] h fun path hpath => ?_
  rw [Slot.entersSnapshot_nil] at hpath
  cases hpath

/-! ### Distinct keys -/

/-- Every object made for a nested path has each of its keys once. -/
inductive Slot.Distinct : Slot → Prop
  | value (p : Primitive) : Distinct (.value p)
  | shared : Distinct .shared
  | own {members : List (JsString × Slot)} :
      (members.map Prod.fst).Nodup → (∀ e ∈ members, Distinct e.2) →
      Distinct (.own members)

namespace Slot

theorem distinct_extracted (node : Node) : (extracted node).Distinct := by
  cases node with
  | prim p => exact .value p
  | object kind props => exact .shared

theorem Distinct.setEntries {segment : JsString} {slot : Slot}
    {members : List (JsString × Slot)} (h : (Slot.own members).Distinct)
    (hslot : slot.Distinct) :
    (Slot.own (setEntries segment slot members)).Distinct := by
  cases h with
  | own hnodup hbelow =>
      refine .own (InsertionMap.nodup_setEntries segment slot hnodup) ?_
      intro e he
      rcases InsertionMap.mem_setEntries he with rfl | he
      · exact hslot
      · exact hbelow e he

theorem Distinct.ownMembers_lookup {members : List (JsString × Slot)}
    (h : (Slot.own members).Distinct) (segment : JsString) :
    (Slot.own (ownMembers (members.lookup segment))).Distinct := by
  cases h with
  | own hnodup hbelow =>
      rcases hlookup : members.lookup segment with _ | (p | _ | inner)
      · exact .own List.nodup_nil (by simp [ownMembers])
      · exact .own List.nodup_nil (by simp [ownMembers])
      · exact .own List.nodup_nil (by simp [ownMembers])
      · exact hbelow _ (InsertionMap.mem_of_lookup hlookup)

theorem Distinct.setOwn {slot : Slot} (hslot : slot.Distinct) :
    ∀ {path : List JsString} {members : List (JsString × Slot)},
      (Slot.own members).Distinct →
        (Slot.own (setOwn slot path members)).Distinct
  | [], _, h => h
  | [_], _, h => h.setEntries hslot
  | segment :: _ :: _, _, h =>
      h.setEntries (Distinct.setOwn hslot (h.ownMembers_lookup segment))

theorem map_fst_resolveMembers (members : List (JsString × Slot))
    (node : Node) :
    (resolveMembers members node).map Prod.fst = members.map Prod.fst := by
  induction members with
  | nil => rfl
  | cons e members ih =>
      rw [resolveMembers, List.map_cons, List.map_cons, ih]

mutual

theorem Distinct.resolve : ∀ {slot : Slot} {node : Node},
    slot.Distinct → node.Distinct → (slot.resolve node).Distinct
  | .value p, _, _, _ => .prim p
  | .shared, node, _, hnode => hnode
  | .own members, node, h, hnode => by
      cases h with
      | own hnodup hbelow =>
          refine .object ?_ (distinct_resolveMembers hbelow hnode)
          rwa [map_fst_resolveMembers]

theorem distinct_resolveMembers : ∀ {members : List (JsString × Slot)}
    {node : Node}, (∀ e ∈ members, e.2.Distinct) → node.Distinct →
      ∀ e ∈ resolveMembers members node, e.2.Distinct
  | [], _, _, _, _, he => by cases he
  | (name, slot) :: members, node, h, hnode, e, he => by
      rw [List.forall_mem_cons] at h
      rw [resolveMembers] at he
      rcases List.mem_cons.1 he with rfl | he
      · exact h.1.resolve (hnode.get name)
      · exact distinct_resolveMembers h.2 hnode e he

end

end Slot

/-- A build keeps the keys distinct, in the fields and in the snapshot. -/
theorem distinct_buildFields :
    ∀ {paths : List (List JsString)} {fields built : List (JsString × Slot)}
      {node left : Node}, (Slot.own fields).Distinct → node.Distinct →
        buildFields paths fields node = (some built, left) →
          (Slot.own built).Distinct ∧ left.Distinct := by
  intro paths
  induction paths with
  | nil =>
      intro fields built node left hfields hnode hbuild
      cases hbuild
      exact ⟨hfields, hnode⟩
  | cons path paths ih =>
      intro fields built node left hfields hnode hbuild
      rw [buildFields] at hbuild
      split at hbuild
      · rcases hwritten : Node.setNestedField (node.extractField path) path
          node with _ | written
        · rw [hwritten] at hbuild
          cases hbuild
        · rw [hwritten] at hbuild
          refine ih hfields ?_ hbuild
          exact hnode.extractField.setNestedField hnode hwritten
      · exact ih (.setOwn (Slot.distinct_extracted _) hfields) hnode hbuild

theorem distinct_extractedFields {definition : IndexDefinition}
    {s : Node.Snapshot} {fields : Record}
    (h : extractedFields definition s = some fields) : fields.node.Distinct := by
  rw [extractedFields, Option.map_eq_some_iff] at h
  obtain ⟨built, hbuilt, rfl⟩ := h
  have hempty : (Slot.own []).Distinct := .own List.nodup_nil (by simp)
  obtain ⟨hfields, hleft⟩ :=
    distinct_buildFields hempty s.distinct (Prod.ext hbuilt rfl)
  exact hfields.resolve hleft

/-! ## Updating as rebuilding -/

variable {D : IndexedDocument} {s : Node.Snapshot}

theorem map_fst_updateLoop_subset {stored : JsString → Option Record} :
    ∀ {todo : List (JsString × IndexDefinition)} {node : Node},
      (updateLoop stored todo node).1.map Prod.fst ⊆ todo.map Prod.fst := by
  intro todo
  induction todo with
  | nil =>
      intro node
      exact List.Subset.refl _
  | cons e todo ih =>
      intro node
      obtain ⟨indexName, definition⟩ := e
      rw [updateLoop]
      split
      · exact List.nil_subset _
      · dsimp only
        split
        · exact List.subset_cons_of_subset _ ih
        · exact List.cons_subset_cons _ ih

/-- The fields that are written in one call. -/
theorem lookup_updateLoop (stored : JsString → Option Record) {node : Node} :
    ∀ {todo : List (JsString × IndexDefinition)},
      (todo.map Prod.fst).Nodup → (∀ e ∈ todo, PathsPresent e.2.paths node) →
        (updateLoop stored todo node).2 = node ∧
        ∀ e ∈ todo, ∃ built,
          buildFields e.2.paths [] node = (some built, node) ∧
          (updateLoop stored todo node).1.lookup e.1 =
            if (stored e.1).any fun existing => existing.node.fieldsEqual
                (Record.node (Slot.resolveMembers built node)) then none
            else some built := by
  intro todo
  induction todo with
  | nil =>
      intro _ _
      exact ⟨rfl, fun e he => by cases he⟩
  | cons e todo ih =>
      obtain ⟨indexName, definition⟩ := e
      intro hnodup hpresent
      rw [List.map_cons, List.nodup_cons] at hnodup
      rw [List.forall_mem_cons] at hpresent
      obtain ⟨hleft, hothers⟩ := ih hnodup.2 hpresent.2
      obtain ⟨built, hbuilt⟩ := buildFields_eq_of_present hpresent.1
      have hfresh : (updateLoop stored todo node).1.lookup indexName = none := by
        rw [List.lookup_eq_none_iff]
        intro e he
        rw [bne_iff_ne]
        rintro rfl
        exact hnodup.1 (map_fst_updateLoop_subset (List.mem_map_of_mem he))
      rw [updateLoop, hbuilt]
      dsimp only
      split
      · rename_i hequal
        refine ⟨hleft, List.forall_mem_cons.2 ⟨⟨built, hbuilt, ?_⟩, hothers⟩⟩
        rw [if_pos hequal]
        exact hfresh
      · rename_i hequal
        refine ⟨hleft, List.forall_mem_cons.2 ⟨⟨built, hbuilt, ?_⟩, ?_⟩⟩
        · rw [if_neg hequal, InsertionMap.lookup_cons_ite, if_pos rfl]
        · intro e he
          have hne : e.1 ≠ indexName := by
            rintro rfl
            exact hnodup.1 (List.mem_map.2 ⟨e, he, rfl⟩)
          rw [InsertionMap.lookup_cons_ite, if_neg hne]
          exact hothers e he

theorem nodup_matching (D : IndexedDocument) :
    (D.matching.map Prod.fst).Nodup :=
  D.definitions.nodup.sublist (InsertionMap.map_fst_filter_sublist _ _)

/-- An undisturbed call skips the write where the fields compare as equal, and
otherwise writes what rebuilding would. -/
theorem updateIndex_eq {stored : JsString → Option Record}
    (hundisturbed : Undisturbed D s) {e : JsString × IndexDefinition}
    (he : e ∈ D.matching) {fields : Record}
    (hfields : extractedFields e.2 s = some fields) :
    updateIndex D stored s e.1 =
      if (stored e.1).any fun existing =>
          existing.node.fieldsEqual fields.node then stored e.1
      else some fields := by
  rw [extractedFields, Option.map_eq_some_iff] at hfields
  obtain ⟨built, hbuilt, rfl⟩ := hfields
  rcases hundisturbed with hone | hpresent
  · -- the only build is the one that rebuilding makes
    have hmatching : D.matching = [e] := by
      rcases heq : D.matching with _ | ⟨e', _ | ⟨e'', todo⟩⟩
      · rw [heq] at he
        cases he
      · rw [heq, List.mem_singleton] at he
        rw [he]
      · rw [heq] at hone
        simp at hone
    have hbuild : buildFields e.2.paths [] s.node =
        (some built, (buildFields e.2.paths [] s.node).2) :=
      Prod.ext hbuilt rfl
    rw [updateIndex, hmatching, updateLoop, hbuild]
    dsimp only
    by_cases hequal : ((stored e.1).any fun existing =>
        existing.node.fieldsEqual (Record.node (Slot.resolveMembers built
          (buildFields e.2.paths [] s.node).2))) = true
    · rw [if_pos hequal, if_pos hequal]
      rfl
    · rw [if_neg hequal, if_neg hequal, InsertionMap.lookup_cons_ite,
        if_pos rfl]
      rfl
  · obtain ⟨hleft, hlookup⟩ :=
      lookup_updateLoop stored (nodup_matching D) hpresent
    obtain ⟨built', hbuild, hwritten⟩ := hlookup e he
    rw [hbuild] at hbuilt ⊢
    cases hbuilt
    rw [updateIndex, hleft, hwritten]
    dsimp only
    by_cases hequal : ((stored e.1).any fun existing =>
        existing.node.fieldsEqual
          (Record.node (Slot.resolveMembers built s.node))) = true
    · rw [if_pos hequal, if_pos hequal]
    · rw [if_neg hequal, if_neg hequal]

/-- After an undisturbed call every matching index holds what rebuilding would
store if and only if the comparisons were between fields that are alike or
differ in what can be seen. -/
theorem asRebuilt_updateIndex_iff {stored : JsString → Option Record}
    (hundisturbed : Undisturbed D s) :
    AsRebuilt D (updateIndex D stored s) s ↔ Discerned D stored s := by
  constructor
  · intro h e he existing fields hstored hfields
    obtain ⟨entry, hentry, hsame⟩ := h e he fields hfields
    rw [updateIndex_eq hundisturbed he hfields, hstored, Option.any_some]
      at hentry
    refine (Node.fieldsEqual_sound_iff _ _ existing fields).1 fun hequal => ?_
    rw [if_pos (show existing.node.fieldsEqual fields.node = true from hequal),
      Option.some.injEq] at hentry
    rw [hentry]
    exact hsame
  · intro h e he fields hfields
    rw [updateIndex_eq hundisturbed he hfields]
    rcases hstored : stored e.1 with _ | existing
    · exact ⟨fields, rfl, Node.sameData_self (distinct_extractedFields hfields)⟩
    · rw [Option.any_some]
      split
      · rename_i hequal
        have hdiscerned := h e he existing fields hstored hfields
        exact ⟨existing, rfl,
          (Node.fieldsEqual_sound_iff _ _ existing fields).2 hdiscerned hequal⟩
      · exact ⟨fields, rfl, Node.sameData_self (distinct_extractedFields hfields)⟩

/-- Where the calls are undisturbed, every call of a run leaves in each matching
index what rebuilding from its snapshot would store, if and only if each call
compares fields that are alike or differ in what can be seen; and two objects
that compare as equal have the same data exactly under this condition. -/
theorem incremental_iff_discerned (D : IndexedDocument)
    (stored : JsString → Option Record) (snapshots : List Node.Snapshot)
    (hundisturbed : Guarded (updateIndex D) (fun _ s => Undisturbed D s) stored
      snapshots) :
    (∀ (kind kind' : ObjectKind) (props props' : List (JsString × Node)),
      (Node.fieldsEqual (.object kind props) (.object kind' props') = true →
        Node.SameData (.object kind props) (.object kind' props')) ↔
      Node.Alike (.object kind props) (.object kind' props') ∨
        Node.VisiblyDiffer (.object kind props) (.object kind' props')) ∧
    (Guarded (updateIndex D)
      (fun stored s => AsRebuilt D (updateIndex D stored s) s) stored
        snapshots ↔
      Guarded (updateIndex D) (Discerned D) stored snapshots) := by
  have hstep : ∀ (stored : JsString → Option Record) (s : Node.Snapshot),
      True → Undisturbed D s →
        (AsRebuilt D (updateIndex D stored s) s ↔ Discerned D stored s) :=
    fun _ _ _ hs => asRebuilt_updateIndex_iff hs
  exact ⟨Node.fieldsEqual_sound_iff, guarded_iff_guarded hstep
    (fun _ _ _ _ _ => trivial) snapshots stored trivial hundisturbed⟩

namespace IncrementalIndex

/-- The field with the path `a` is indexed for every document. -/
def indexOfA : IndexedDocument :=
  ⟨⟨[([0x69], ⟨[], [[0x61]]⟩)], by decide⟩, []⟩

/-- The snapshot `{ a: … }`. -/
def snapshotWithA (a : Node) (h : a.Distinct) : Node.Snapshot :=
  ⟨.object .plain [([0x61], a)], .object (by simp) (by simpa using h)⟩

/-- The snapshot `{ a: [] }`. -/
def emptyArray : Node.Snapshot :=
  snapshotWithA (.object (.array 0) []) (.object List.nodup_nil (by simp))

/-- The snapshot `{ a: {} }`. -/
def emptyObject : Node.Snapshot :=
  snapshotWithA .empty Node.distinct_empty

/-- The snapshot `{ a: b }` with a truth value. -/
def boolean (b : Bool) : Node.Snapshot :=
  snapshotWithA (.prim (.bool b)) (.prim _)

theorem matching_indexOfA :
    indexOfA.matching = [([0x69], ⟨[], [[0x61]]⟩)] := rfl

/-- The empty array stays stored when the field becomes an empty object. -/
theorem empty_array_stays : ¬ AsRebuilt indexOfA
    (exec (updateIndex indexOfA) (fun _ => none) [emptyArray, emptyObject])
    emptyObject := by
  intro h
  obtain ⟨entry, hentry, hsame⟩ := h ([0x69], ⟨[], [[0x61]]⟩)
    (by rw [matching_indexOfA, List.mem_singleton]) [([0x61], .empty)] rfl
  have hstored : exec (updateIndex indexOfA) (fun _ => none)
      [emptyArray, emptyObject] [0x69] =
        some [([0x61], .object (.array 0) [])] := rfl
  rw [hstored] at hentry
  cases hentry
  obtain ⟨props, hprops, -, ⟨w, hw, hvalue⟩, -⟩ := hsame
  cases hprops
  cases hw
  obtain ⟨_, hkind, -⟩ := hvalue
  cases hkind

/-- A second index writes `a.b` into the object that the first index stored. -/
example :
    let D : IndexedDocument := ⟨⟨[([0x69], ⟨[], [[0x61]]⟩),
      ([0x6A], ⟨[], [[0x61], [0x61, 0x2E, 0x62]]⟩)], by decide⟩, []⟩
    updateIndex D (fun _ => none) emptyObject [0x69] =
        some [([0x61], .object .plain [([0x62], .prim .undefined)])] ∧
      extractedFields ⟨[], [[0x61]]⟩ emptyObject = some [([0x61], .empty)] :=
  ⟨rfl, rfl⟩

/-- A truth value that changes is updated. -/
theorem boolean_updated : Guarded (updateIndex indexOfA)
    (fun stored s => AsRebuilt indexOfA (updateIndex indexOfA stored s) s)
    (fun _ => none) [boolean true, boolean false] := by
  refine (incremental_iff_discerned indexOfA (fun _ => none)
    [boolean true, boolean false]
    ⟨Or.inl (by decide), Or.inl (by decide), trivial⟩).2.2 ⟨?_, ?_, trivial⟩
  · intro e _ existing fields hstored _
    cases hstored
  · intro e he existing fields hstored hfields
    rw [matching_indexOfA, List.mem_singleton] at he
    subst he
    cases hstored
    cases hfields
    refine Or.inr (.primitive List.mem_cons_self (Or.inl rfl) ?_)
    intro p hp hget
    cases hp
    cases hget

end IncrementalIndex

end Collabswarm.Index
