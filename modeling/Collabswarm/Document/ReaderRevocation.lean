import Collabswarm.BeeKEM.Path
import Collabswarm.Document.CollabswarmDocument

/-!
# Concurrent calls of `addReader` and `removeReader`

The two methods as they are interrupted at their awaits, with
`_registerBeeKEMReader`, `addMember`, `removeMember` and `findLeafByPublicKey`
inside them.  A registration checks `_readerLeafIndices`, awaits, places a leaf,
awaits and then records the leaf; a removal looks a leaf up, blanks it, and
after more awaits drops the reader from the ACL and forgets the record.

What is awaited may fail at every await.  The writer ACL, the keychain and the
Welcomes, cached or sent, do not matter here and are left out.
-/

namespace Collabswarm.Document

open BeeKEM BeeKEM.TreeMath

/-- Where a call of `addReader` awaits. -/
inductive AddReaderPhase where
  | ensureCurrentUserCanWrite
  | readersCheck
  | checked (alreadyReader : Bool)
  | readersAdd
  | putBlock
  | publish
  | serializePublicKey
  | founderInit
  | importKey
  | exportLeafKey (leafIndex : ℕ)
  | updatePath (leafIndex : ℕ) (rest : List ℕ)
  | buildWelcome (leafIndex : ℕ)
  | sendWelcome
  | returned
  | threw
deriving DecidableEq

/-- Where a call of `removeReader` awaits. -/
inductive RemoveReaderPhase where
  | ensureCurrentUserCanWrite
  | readersCheck
  | checked (isReader : Bool)
  | serializePublicKey
  | exportLeaf (kemPub : RawKey) (leafPos : ℕ) (publicKey : PublicKey)
  | foundLeaf (leafIndex : Option ℕ)
  | generateKey
  | exportLeafKey
  | updatePath (rest : List ℕ)
  | deriveKeys
  | readersRemove
  | putBlock
  | publish
  | distribute
  | addEpochKey
  | returned
  | threw
deriving DecidableEq

/-- The part of a document that the calls share; `hashes` is the size of
`_hashes`. -/
structure ReaderRegistry (U : Type) where
  readers : Finset U
  hashes : ℕ
  kemKeyPair : Option PrivateKey
  beekem : Option Tree
  readerLeafIndices : InsertionMap U ℕ
  readerKemPublicKeys : InsertionMap U RawKey

/-! ## What the calls do between two awaits -/

/-- `_updatePath` finds a key at our leaf. -/
def hasLeafKey (t : Tree) : Bool := (t.myLeafIndex.bind t.publicKeyAt).isSome

/-- The nodes that `_updatePath` is going to store; `none` where the tree
arithmetic throws. -/
def pathNodes (t : Tree) : Option (List ℕ) :=
  if t.numLeaves = 1 then some []
  else
    match t.myLeafIndex.bind (directPath · t.numLeaves),
        t.myLeafIndex.bind (copath · t.numLeaves) with
    | some dp, some _ => some dp
    | _, _ => none

/-- The next leaf with a key that `findLeafByPublicKey` comes to. -/
def nextLeaf (t : Tree) (leafPos : ℕ) : Option (ℕ × PublicKey) :=
  ((List.range t.numLeaves).drop leafPos).findSome? fun pos =>
    match t.nodes.get? (leafToNodeIndex pos) with
    | some node =>
        if node.type = .leaf then node.publicKey.map (pos, ·) else none
    | none => none

/-- The loop of `findLeafByPublicKey` up to the next await. -/
def scanLeaves (t : Tree) (kemPub : RawKey) (leafPos : ℕ) :
    RemoveReaderPhase :=
  match nextLeaf t leafPos with
  | some (pos, publicKey) => .exportLeaf kemPub pos publicKey
  | none => .foundLeaf none

namespace ReaderRegistry

variable {U : Type} [DecidableEq U]

/-- Store a path node with a new key pair. -/
def storeNode (d : ReaderRegistry U) (nodeIndex fresh : ℕ) :
    ReaderRegistry U :=
  { d with beekem := d.beekem.map fun t =>
      t.setNode (Tree.keyNode nodeIndex (generateKey fresh)) }

/-- `_initializeBeeKEMAsFounder`; concurrent calls share one tree. -/
def founderInit (d : ReaderRegistry U) : ReaderRegistry U :=
  match d.beekem, d.kemKeyPair with
  | none, some sk => { d with beekem := some (.initializeTree sk) }
  | _, _ => d

/-- `_registerBeeKEMReader` after the reader's key was serialized. -/
def register (d : ReaderRegistry U) (reader : U) (kem : RawKey) :
    ReaderRegistry U × AddReaderPhase :=
  let d := { d with readerKemPublicKeys :=
    d.readerKemPublicKeys.set reader kem }
  match d.readerLeafIndices.get? reader with
  | some _ => (d, .sendWelcome)
  | none =>
      if d.beekem.isSome then (d, .importKey)
      else if 1 < d.hashes then (d, .threw)
      else if d.kemKeyPair.isNone then (d, .threw)
      else (d, .founderInit)

/-- `addMember` up to its first await. -/
def placeReader (d : ReaderRegistry U) (kem : RawKey) :
    ReaderRegistry U × AddReaderPhase :=
  match d.beekem, kem.imported with
  | some t, some memberPublicKey =>
      let t' := t.placeMember memberPublicKey
      ({ d with beekem := some t' },
        if hasLeafKey t' then .exportLeafKey (leafToNodeIndex t.numLeaves)
        else .threw)
  | _, _ => (d, .threw)

/-- `addReader` after the ACL change. -/
def afterACL : Option RawKey → AddReaderPhase
  | none => .returned
  | some kem =>
      if kem.byteLength ≠ eciesP256PublicKeyLength then .threw
      else .serializePublicKey

/-- `addReader` from one await to the next. -/
def resumeAddReader (d : ReaderRegistry U) (reader : U)
    (readerKemPublicKey : Option RawKey) (fresh : ℕ) :
    AddReaderPhase → ReaderRegistry U × AddReaderPhase
  | .ensureCurrentUserCanWrite =>
      if d.beekem.isNone ∧ d.kemKeyPair.isNone then (d, .threw)
      else if (CollabswarmDocument.wrongLength readerKemPublicKey).isSome then
        (d, .threw)
      else if d.beekem.isNone ∧ 0 < d.hashes then (d, .threw)
      else (d, .readersCheck)
  | .readersCheck => (d, .checked (reader ∈ d.readers))
  | .checked true => (d, afterACL readerKemPublicKey)
  | .checked false => (d, .readersAdd)
  | .readersAdd => ({ d with readers := insert reader d.readers }, .putBlock)
  | .putBlock => ({ d with hashes := d.hashes + 1 }, .publish)
  | .publish => (d, afterACL readerKemPublicKey)
  | .serializePublicKey =>
      match readerKemPublicKey with
      | none => (d, .threw)
      | some kem => d.register reader kem
  | .founderInit => (d.founderInit, .importKey)
  | .importKey =>
      match readerKemPublicKey with
      | none => (d, .threw)
      | some kem => d.placeReader kem
  | .exportLeafKey leafIndex =>
      match d.beekem.bind pathNodes with
      | some dp => (d, .updatePath leafIndex dp)
      | none => (d, .threw)
  | .updatePath leafIndex (nodeIndex :: rest) =>
      (d.storeNode nodeIndex fresh, .updatePath leafIndex rest)
  | .updatePath leafIndex [] => (d, .buildWelcome leafIndex)
  | .buildWelcome leafIndex =>
      ({ d with readerLeafIndices :=
        d.readerLeafIndices.set reader leafIndex }, .sendWelcome)
  | .sendWelcome => (d, .returned)
  | .returned => (d, .returned)
  | .threw => (d, .threw)

/-- `removeMember` up to its first await. -/
def blankReader (d : ReaderRegistry U) (leafIndex : ℕ) :
    ReaderRegistry U × RemoveReaderPhase :=
  match d.beekem with
  | none => (d, .threw)
  | some t =>
      let t' := t.setNode (Tree.blankLeaf leafIndex)
      match directPath leafIndex t.numLeaves with
      | none => ({ d with beekem := some t' }, .threw)
      | some removedPath =>
          ({ d with beekem := some (t'.blankPath removedPath) }, .generateKey)

/-- `removeMember` after the key pair for our leaf was generated. -/
def rekeyLeaf (d : ReaderRegistry U) (fresh : ℕ) :
    ReaderRegistry U × RemoveReaderPhase :=
  match d.beekem with
  | none => (d, .threw)
  | some t =>
      let t' := t.rekeyLeaf fresh
      ({ d with beekem := some t' },
        if hasLeafKey t' then .exportLeafKey else .threw)

/-- Forget what is recorded about a reader. -/
def forgetReader (d : ReaderRegistry U) (reader : U) : ReaderRegistry U :=
  { d with
    readerLeafIndices := d.readerLeafIndices.erase reader
    readerKemPublicKeys := d.readerKemPublicKeys.erase reader }

/-- The leaf lookup of `removeReader`. -/
def lookupLeaf (d : ReaderRegistry U) (reader : U) :
    ReaderRegistry U × RemoveReaderPhase :=
  match d.beekem with
  | none => (d, .threw)
  | some t =>
      match d.readerLeafIndices.get? reader,
          d.readerKemPublicKeys.get? reader with
      | some leafIndex, _ => d.blankReader leafIndex
      | none, some kemPub => (d, scanLeaves t kemPub 0)
      | none, none => (d, .threw)

/-- `removeReader` from one await to the next. -/
def resumeRemoveReader (d : ReaderRegistry U) (reader : U) (fresh : ℕ) :
    RemoveReaderPhase → ReaderRegistry U × RemoveReaderPhase
  | .ensureCurrentUserCanWrite => (d, .readersCheck)
  | .readersCheck => (d, .checked (reader ∈ d.readers))
  | .checked true => (d, .serializePublicKey)
  | .checked false => (d, .returned)
  | .serializePublicKey => d.lookupLeaf reader
  | .exportLeaf kemPub leafPos publicKey =>
      if kemPub.imported = some publicKey then
        (d, .foundLeaf (some (leafToNodeIndex leafPos)))
      else
        match d.beekem with
        | none => (d, .threw)
        | some t => (d, scanLeaves t kemPub (leafPos + 1))
  | .foundLeaf none => (d, .threw)
  | .foundLeaf (some leafIndex) =>
      { d with readerLeafIndices :=
        d.readerLeafIndices.set reader leafIndex }.blankReader leafIndex
  | .generateKey => d.rekeyLeaf fresh
  | .exportLeafKey =>
      match d.beekem.bind pathNodes with
      | some dp => (d, .updatePath dp)
      | none => (d, .threw)
  | .updatePath (nodeIndex :: rest) =>
      (d.storeNode nodeIndex fresh, .updatePath rest)
  | .updatePath [] => (d, .deriveKeys)
  | .deriveKeys => (d, .readersRemove)
  | .readersRemove => ({ d with readers := d.readers.erase reader }, .putBlock)
  | .putBlock => ({ d with hashes := d.hashes + 1 }, .publish)
  | .publish => (d.forgetReader reader, .distribute)
  | .distribute => (d, .addEpochKey)
  | .addEpochKey => (d, .returned)
  | .returned => (d, .returned)
  | .threw => (d, .threw)

end ReaderRegistry

/-- What `addReader` does when the awaited operation fails: a Welcome that
cannot be sent is logged. -/
def AddReaderPhase.fail : AddReaderPhase → AddReaderPhase
  | .sendWelcome => .returned
  | .returned => .returned
  | _ => .threw

/-- The call has ended. -/
def AddReaderPhase.finished : AddReaderPhase → Bool
  | .returned => true
  | .threw => true
  | _ => false

theorem AddReaderPhase.finished_fail (phase : AddReaderPhase) :
    phase.fail.finished = true := by
  cases phase <;> rfl

/-- The call found that there is nothing to remove, or it has blanked the leaf;
it has not thrown. -/
def RemoveReaderPhase.past : RemoveReaderPhase → Bool
  | .ensureCurrentUserCanWrite => false
  | .readersCheck => false
  | .checked isReader => !isReader
  | .serializePublicKey => false
  | .exportLeaf _ _ _ => false
  | .foundLeaf _ => false
  | .threw => false
  | _ => true

/-- What `removeReader` does when the awaited operation fails: the failures of
the ACL change and of the distribution are logged. -/
def ReaderRegistry.failRemoveReader {U : Type} [DecidableEq U]
    (d : ReaderRegistry U) (reader : U) :
    RemoveReaderPhase → ReaderRegistry U × RemoveReaderPhase
  | .readersRemove => (d.forgetReader reader, .distribute)
  | .putBlock => (d.forgetReader reader, .distribute)
  | .publish => (d.forgetReader reader, .distribute)
  | .distribute => (d, .addEpochKey)
  | .returned => (d, .returned)
  | _ => (d, .threw)

/-! ## Interleaved calls -/

/-- A call of one of the two methods. -/
inductive ReaderTask (U : Type) where
  | addReader (reader : U) (readerKemPublicKey : Option RawKey)
      (phase : AddReaderPhase)
  | removeReader (reader : U) (phase : RemoveReaderPhase)
deriving DecidableEq

/-- A document with all calls. -/
structure ReaderCalls (U : Type) where
  registry : ReaderRegistry U
  calls : List (ReaderTask U)

/-- A call starts, what a call awaits is there (with the key pair that is
generated, if one is), or what it awaits fails. -/
inductive ReaderEvent (U : Type) where
  | addReader (reader : U) (readerKemPublicKey : Option RawKey)
  | removeReader (reader : U)
  | resume (call fresh : ℕ)
  | fail (call : ℕ)
deriving DecidableEq

section Calls

variable {U : Type} [DecidableEq U]

/-- A call goes on. -/
def ReaderTask.resume (d : ReaderRegistry U) (fresh : ℕ) :
    ReaderTask U → ReaderRegistry U × ReaderTask U
  | .addReader reader kem phase =>
      let after := d.resumeAddReader reader kem fresh phase
      (after.1, .addReader reader kem after.2)
  | .removeReader reader phase =>
      let after := d.resumeRemoveReader reader fresh phase
      (after.1, .removeReader reader after.2)

/-- What a call awaits fails. -/
def ReaderTask.fail (d : ReaderRegistry U) :
    ReaderTask U → ReaderRegistry U × ReaderTask U
  | .addReader reader kem phase => (d, .addReader reader kem phase.fail)
  | .removeReader reader phase =>
      let after := d.failRemoveReader reader phase
      (after.1, .removeReader reader after.2)

namespace ReaderCalls

/-- A document before the calls. -/
def new (d : ReaderRegistry U) : ReaderCalls U := ⟨d, []⟩

/-- One event. -/
def step (s : ReaderCalls U) : ReaderEvent U → ReaderCalls U
  | .addReader reader kem =>
      { s with calls :=
        s.calls ++ [.addReader reader kem .ensureCurrentUserCanWrite] }
  | .removeReader reader =>
      { s with calls :=
        s.calls ++ [.removeReader reader .ensureCurrentUserCanWrite] }
  | .resume i fresh =>
      match s.calls[i]? with
      | some call =>
          let after := call.resume s.registry fresh
          ⟨after.1, s.calls.set i after.2⟩
      | none => s
  | .fail i =>
      match s.calls[i]? with
      | some call =>
          let after := call.fail s.registry
          ⟨after.1, s.calls.set i after.2⟩
      | none => s

end ReaderCalls

/-! ## The leaves of a reader -/

/-- The nodes of a tree that hold a key of a reader. -/
def ownedNodes (owner : PublicKey → Option U) (reader : U) (t : Tree) :
    List ℕ :=
  (t.nodes.entries.filter fun e =>
    e.2.publicKey.bind owner = some reader).map Prod.fst

/-- The nodes of the document's tree that hold a key of a reader. -/
def ReaderRegistry.leavesOf (owner : PublicKey → Option U)
    (d : ReaderRegistry U) (reader : U) : List ℕ :=
  match d.beekem with
  | some t => ownedNodes owner reader t
  | none => []

variable {owner : PublicKey → Option U} {reader : U}

theorem mem_ownedNodes {t : Tree} {i : ℕ} :
    i ∈ ownedNodes owner reader t ↔
      (t.publicKeyAt i).bind owner = some reader := by
  rw [ownedNodes, Tree.publicKeyAt, List.mem_map]
  constructor
  · rintro ⟨e, he, rfl⟩
    obtain ⟨hmem, howner⟩ := List.mem_filter.1 he
    rw [t.nodes.mem_entries_iff.1 hmem]
    exact of_decide_eq_true howner
  · intro h
    rw [Option.bind_assoc] at h
    obtain ⟨node, hnode, howner⟩ := Option.bind_eq_some_iff.1 h
    refine ⟨(i, node), List.mem_filter.2 ⟨?_, decide_eq_true howner⟩, rfl⟩
    exact t.nodes.mem_entries_iff.2 hnode

/-- A node that holds no key of the reader leaves the reader's other nodes. -/
theorem ownedNodes_setNode {t : Tree} {node : TreeNode} {i : ℕ}
    (hnode : node.publicKey.bind owner ≠ some reader)
    (h : i ∈ ownedNodes owner reader (t.setNode node)) :
    i ∈ ownedNodes owner reader t ∧ i ≠ node.index := by
  rw [mem_ownedNodes, Tree.publicKeyAt_setNode] at h
  split at h
  · exact absurd h hnode
  · rename_i hne
    exact ⟨mem_ownedNodes.2 h, hne⟩

theorem ownedNodes_blankPath {i : ℕ} :
    ∀ (path : List ℕ) {t : Tree},
      i ∈ ownedNodes owner reader (t.blankPath path) →
        i ∈ ownedNodes owner reader t := by
  intro path
  induction path with
  | nil =>
      intro t h
      exact h
  | cons nodeIndex path ih =>
      intro t h
      have hblank : (Tree.blankNode nodeIndex).publicKey.bind owner ≠
          some reader := by
        simp [Tree.blankNode]
      exact (ownedNodes_setNode hblank (ih h)).1

theorem ownedNodes_rekeyLeaf {t : Tree} {fresh i : ℕ}
    (hfresh : owner (generateKey fresh).publicKey = none)
    (h : i ∈ ownedNodes owner reader (t.rekeyLeaf fresh)) :
    i ∈ ownedNodes owner reader t := by
  rw [Tree.rekeyLeaf] at h
  split at h
  · refine (ownedNodes_setNode ?_ h).1
    simp [Tree.keyLeaf, hfresh]
  · exact h

theorem ownedNodes_placeMember {t : Tree} {pk : PublicKey} {i : ℕ}
    (h : i ∈ ownedNodes owner reader (t.placeMember pk)) :
    i ∈ ownedNodes owner reader t ∨ owner pk = some reader := by
  rw [mem_ownedNodes, Tree.placeMember, Tree.publicKeyAt_setNode] at h
  split at h
  · exact Or.inr h
  · exact Or.inl (mem_ownedNodes.2 h)

theorem ownedNodes_initializeTree {sk : PrivateKey} {i : ℕ}
    (hsk : owner sk.publicKey = none) :
    i ∉ ownedNodes owner reader (Tree.initializeTree sk) := by
  intro h
  have hleaf : (Tree.keyLeaf 0 sk).publicKey.bind owner ≠ some reader := by
    simp [Tree.keyLeaf, hsk]
  have hempty := (ownedNodes_setNode hleaf h).1
  rw [mem_ownedNodes] at hempty
  cases hempty

/-! ## What one step changes -/

/-- A step that gives no reader a leaf, drops no reader from the ACL and
records nothing. -/
structure ReaderRegistry.Frame (owner : PublicKey → Option U)
    (d d' : ReaderRegistry U) : Prop where
  kemKeyPair : d'.kemKeyPair = d.kemKeyPair
  readers : d.readers ⊆ d'.readers
  readerLeafIndices : d'.readerLeafIndices = d.readerLeafIndices
  leaves : ∀ reader i, i ∈ d'.leavesOf owner reader →
    i ∈ d.leavesOf owner reader

namespace ReaderRegistry

theorem Frame.refl (owner : PublicKey → Option U) (d : ReaderRegistry U) :
    d.Frame owner d :=
  ⟨rfl, Finset.Subset.refl _, rfl, fun _ _ h => h⟩

variable {d : ReaderRegistry U} {fresh : ℕ}

theorem storeNode_frame (hfresh : owner (generateKey fresh).publicKey = none)
    (nodeIndex : ℕ) : d.Frame owner (d.storeNode nodeIndex fresh) := by
  refine ⟨rfl, Finset.Subset.refl _, rfl, ?_⟩
  intro reader i h
  rw [leavesOf, storeNode] at h
  rw [leavesOf]
  cases hbeekem : d.beekem with
  | none =>
      rw [hbeekem] at h
      exact h
  | some t =>
      rw [hbeekem] at h
      refine (ownedNodes_setNode ?_ h).1
      simp [Tree.keyNode, hfresh]

theorem founderInit_frame
    (hkem : ∀ sk ∈ d.kemKeyPair, owner sk.publicKey = none) :
    d.Frame owner d.founderInit := by
  rw [founderInit]
  split
  · rename_i sk _ hsk
    refine ⟨rfl, Finset.Subset.refl _, rfl, ?_⟩
    intro reader i h
    exact absurd h (ownedNodes_initializeTree (hkem sk hsk))
  · exact Frame.refl owner d

theorem register_frame (reader : U) (kem : RawKey) :
    d.Frame owner (d.register reader kem).1 := by
  have hrecord : d.Frame owner { d with
      readerKemPublicKeys := d.readerKemPublicKeys.set reader kem } :=
    ⟨rfl, Finset.Subset.refl _, rfl, fun _ _ h => h⟩
  rw [register]
  dsimp only
  split
  · exact hrecord
  · split_ifs <;> exact hrecord

/-- The leaf that is blanked is nobody's leaf any more. -/
theorem blankReader_leaves {leafIndex i : ℕ}
    (h : i ∈ (d.blankReader leafIndex).1.leavesOf owner reader) :
    i ∈ d.leavesOf owner reader ∧ i ≠ leafIndex := by
  have hblank : (Tree.blankLeaf leafIndex).publicKey.bind owner ≠
      some reader := by
    simp [Tree.blankLeaf]
  rw [blankReader] at h
  rw [leavesOf]
  cases hbeekem : d.beekem with
  | none =>
      rw [hbeekem] at h
      dsimp only at h
      rw [leavesOf, hbeekem] at h
      cases h
  | some t =>
      rw [hbeekem] at h
      dsimp only at h
      split at h
      · exact ownedNodes_setNode hblank h
      · exact ownedNodes_setNode hblank (ownedNodes_blankPath _ h)

theorem blankReader_frame (leafIndex : ℕ) :
    d.Frame owner (d.blankReader leafIndex).1 := by
  have hleaves : ∀ reader i,
      i ∈ (d.blankReader leafIndex).1.leavesOf owner reader →
        i ∈ d.leavesOf owner reader := fun _ _ h => (blankReader_leaves h).1
  rw [blankReader] at hleaves ⊢
  cases hbeekem : d.beekem with
  | none => exact Frame.refl owner d
  | some t =>
      rw [hbeekem] at hleaves
      dsimp only at hleaves ⊢
      split at hleaves
      · exact ⟨rfl, Finset.Subset.refl _, rfl, hleaves⟩
      · exact ⟨rfl, Finset.Subset.refl _, rfl, hleaves⟩

theorem rekeyLeaf_frame
    (hfresh : owner (generateKey fresh).publicKey = none) :
    d.Frame owner (d.rekeyLeaf fresh).1 := by
  rw [rekeyLeaf]
  cases hbeekem : d.beekem with
  | none => exact Frame.refl owner d
  | some t =>
      refine ⟨rfl, Finset.Subset.refl _, rfl, ?_⟩
      intro reader i h
      rw [leavesOf, hbeekem]
      exact ownedNodes_rekeyLeaf hfresh h

theorem lookupLeaf_frame (reader : U) :
    d.Frame owner (d.lookupLeaf reader).1 := by
  rw [lookupLeaf]
  split
  · exact Frame.refl owner d
  · split
    · exact blankReader_frame _
    · exact Frame.refl owner d
    · exact Frame.refl owner d

/-- A step of `addReader` places a leaf, records one, or does neither. -/
theorem resumeAddReader_cases
    (hfresh : owner (generateKey fresh).publicKey = none)
    (hkem : ∀ sk ∈ d.kemKeyPair, owner sk.publicKey = none) (reader : U)
    (kem : Option RawKey) (phase : AddReaderPhase) :
    d.Frame owner (d.resumeAddReader reader kem fresh phase).1 ∨
    (phase = .importKey ∧ ∃ key pk t, kem = some key ∧
      key.imported = some pk ∧ d.beekem = some t ∧
      (d.resumeAddReader reader kem fresh phase).1 =
        { d with beekem := some (t.placeMember pk) }) ∨
    ∃ leafIndex, phase = .buildWelcome leafIndex ∧
      (d.resumeAddReader reader kem fresh phase).1 =
        { d with readerLeafIndices :=
          d.readerLeafIndices.set reader leafIndex } := by
  cases phase with
  | ensureCurrentUserCanWrite =>
      rw [resumeAddReader]
      refine Or.inl ?_
      split_ifs <;> exact Frame.refl owner d
  | readersCheck => exact Or.inl (Frame.refl owner d)
  | checked alreadyReader =>
      cases alreadyReader <;> exact Or.inl (Frame.refl owner d)
  | readersAdd =>
      exact Or.inl ⟨rfl, Finset.subset_insert _ _, rfl, fun _ _ h => h⟩
  | putBlock =>
      exact Or.inl ⟨rfl, Finset.Subset.refl _, rfl, fun _ _ h => h⟩
  | publish => exact Or.inl (Frame.refl owner d)
  | serializePublicKey =>
      cases kem with
      | none => exact Or.inl (Frame.refl owner d)
      | some key => exact Or.inl (register_frame reader key)
  | founderInit => exact Or.inl (founderInit_frame hkem)
  | importKey =>
      cases kem with
      | none => exact Or.inl (Frame.refl owner d)
      | some key =>
          rw [resumeAddReader, placeReader]
          split
          · rename_i t pk hbeekem hpk
            exact Or.inr (Or.inl ⟨rfl, key, pk, t, rfl, hpk, hbeekem, rfl⟩)
          · exact Or.inl (Frame.refl owner d)
  | exportLeafKey leafIndex =>
      rw [resumeAddReader]
      refine Or.inl ?_
      split <;> exact Frame.refl owner d
  | updatePath leafIndex rest =>
      cases rest with
      | nil => exact Or.inl (Frame.refl owner d)
      | cons nodeIndex rest =>
          exact Or.inl (storeNode_frame hfresh nodeIndex)
  | buildWelcome leafIndex => exact Or.inr (Or.inr ⟨leafIndex, rfl, rfl⟩)
  | sendWelcome => exact Or.inl (Frame.refl owner d)
  | returned => exact Or.inl (Frame.refl owner d)
  | threw => exact Or.inl (Frame.refl owner d)

/-- A step of `removeReader` records the leaf it found and blanks it, changes
the ACL, forgets the reader, or does none of these. -/
theorem resumeRemoveReader_cases
    (hfresh : owner (generateKey fresh).publicKey = none) (reader : U)
    (phase : RemoveReaderPhase) :
    d.Frame owner (d.resumeRemoveReader reader fresh phase).1 ∨
    (∃ leafIndex, phase = .foundLeaf (some leafIndex) ∧
      { d with readerLeafIndices :=
        d.readerLeafIndices.set reader leafIndex }.Frame owner
          (d.resumeRemoveReader reader fresh phase).1) ∨
    (phase = .readersRemove ∧
      (d.resumeRemoveReader reader fresh phase).1 =
        { d with readers := d.readers.erase reader }) ∨
    (d.resumeRemoveReader reader fresh phase).1 = d.forgetReader reader := by
  cases phase with
  | ensureCurrentUserCanWrite => exact Or.inl (Frame.refl owner d)
  | readersCheck => exact Or.inl (Frame.refl owner d)
  | checked isReader =>
      cases isReader <;> exact Or.inl (Frame.refl owner d)
  | serializePublicKey => exact Or.inl (lookupLeaf_frame reader)
  | exportLeaf kemPub leafPos publicKey =>
      rw [resumeRemoveReader]
      refine Or.inl ?_
      split
      · exact Frame.refl owner d
      · split <;> exact Frame.refl owner d
  | foundLeaf leafIndex =>
      cases leafIndex with
      | none => exact Or.inl (Frame.refl owner d)
      | some leafIndex =>
          exact Or.inr (Or.inl ⟨leafIndex, rfl, blankReader_frame leafIndex⟩)
  | generateKey => exact Or.inl (rekeyLeaf_frame hfresh)
  | exportLeafKey =>
      rw [resumeRemoveReader]
      refine Or.inl ?_
      split <;> exact Frame.refl owner d
  | updatePath rest =>
      cases rest with
      | nil => exact Or.inl (Frame.refl owner d)
      | cons nodeIndex rest =>
          exact Or.inl (storeNode_frame hfresh nodeIndex)
  | deriveKeys => exact Or.inl (Frame.refl owner d)
  | readersRemove => exact Or.inr (Or.inr (Or.inl ⟨rfl, rfl⟩))
  | putBlock =>
      exact Or.inl ⟨rfl, Finset.Subset.refl _, rfl, fun _ _ h => h⟩
  | publish => exact Or.inr (Or.inr (Or.inr rfl))
  | distribute => exact Or.inl (Frame.refl owner d)
  | addEpochKey => exact Or.inl (Frame.refl owner d)
  | returned => exact Or.inl (Frame.refl owner d)
  | threw => exact Or.inl (Frame.refl owner d)

theorem failRemoveReader_cases (reader : U) (phase : RemoveReaderPhase) :
    (d.failRemoveReader reader phase).1 = d ∨
      (d.failRemoveReader reader phase).1 = d.forgetReader reader := by
  unfold failRemoveReader
  split
  · exact Or.inr rfl
  · exact Or.inr rfl
  · exact Or.inr rfl
  · exact Or.inl rfl
  · exact Or.inl rfl
  · exact Or.inl rfl

/-! ## Records and leaves agree -/

/-- Our key pair is nobody's, who has a leaf is a reader, and what is recorded
for a reader is the reader's only leaf. -/
structure Sound (owner : PublicKey → Option U) (d : ReaderRegistry U) :
    Prop where
  kemKeyPair : ∀ sk ∈ d.kemKeyPair, owner sk.publicKey = none
  readers : ∀ reader i, i ∈ d.leavesOf owner reader → reader ∈ d.readers
  recorded : ∀ reader i leafIndex, i ∈ d.leavesOf owner reader →
    d.readerLeafIndices.get? reader = some leafIndex → i = leafIndex

variable {d' : ReaderRegistry U}

theorem Sound.frame (h : d.Sound owner) (hframe : d.Frame owner d') :
    d'.Sound owner where
  kemKeyPair := by
    intro sk hsk
    rw [hframe.kemKeyPair] at hsk
    exact h.kemKeyPair sk hsk
  readers := by
    intro reader i hi
    exact hframe.readers (h.readers reader i (hframe.leaves reader i hi))
  recorded := by
    intro reader i leafIndex hi hrecord
    rw [hframe.readerLeafIndices] at hrecord
    exact h.recorded reader i leafIndex (hframe.leaves reader i hi) hrecord

theorem Sound.place (h : d.Sound owner) {t : Tree} (ht : d.beekem = some t)
    {pk : PublicKey} (hpk : owner pk = some reader)
    (hreader : reader ∈ d.readers)
    (hnew : d.readerLeafIndices.get? reader = none) :
    { d with beekem := some (t.placeMember pk) }.Sound owner := by
  have hleaves : ∀ r i, i ∈ ownedNodes owner r (t.placeMember pk) →
      i ∈ d.leavesOf owner r ∨ r = reader := by
    intro r i hi
    rw [leavesOf, ht]
    refine (ownedNodes_placeMember hi).imp_right ?_
    intro hr
    exact Option.some.inj (hr.symm.trans hpk)
  constructor
  · exact h.kemKeyPair
  · intro r i hi
    rcases hleaves r i hi with hold | rfl
    · exact h.readers r i hold
    · exact hreader
  · intro r i leafIndex hi hrecord
    rcases hleaves r i hi with hold | rfl
    · exact h.recorded r i leafIndex hold hrecord
    · exact absurd (hnew.symm.trans hrecord) (by simp)

theorem Sound.record (h : d.Sound owner) {leafIndex : ℕ}
    (hsole : ∀ i ∈ d.leavesOf owner reader, i = leafIndex) :
    { d with readerLeafIndices :=
      d.readerLeafIndices.set reader leafIndex }.Sound owner where
  kemKeyPair := h.kemKeyPair
  readers := h.readers
  recorded := by
    intro r i leafIndex' hi hrecord
    by_cases hr : r = reader
    · subst hr
      rw [InsertionMap.get?_set_self] at hrecord
      rw [hsole i hi]
      exact Option.some.inj hrecord
    · rw [InsertionMap.get?_set_of_ne _ _ hr] at hrecord
      exact h.recorded r i leafIndex' hi hrecord

theorem Sound.removeFromReaders (h : d.Sound owner)
    (hnone : d.leavesOf owner reader = []) :
    { d with readers := d.readers.erase reader }.Sound owner where
  kemKeyPair := h.kemKeyPair
  readers := by
    intro r i hi
    refine Finset.mem_erase.2 ⟨?_, h.readers r i hi⟩
    rintro rfl
    change i ∈ d.leavesOf owner r at hi
    rw [hnone] at hi
    cases hi
  recorded := h.recorded

theorem Sound.forget (h : d.Sound owner) (reader : U) :
    (d.forgetReader reader).Sound owner where
  kemKeyPair := h.kemKeyPair
  readers := h.readers
  recorded := by
    intro r i leafIndex hi hrecord
    rw [forgetReader, InsertionMap.get?_erase] at hrecord
    split at hrecord
    · cases hrecord
    · exact h.recorded r i leafIndex hi hrecord

end ReaderRegistry

namespace ReaderCalls

/-- The condition on a step.  A KEM key is passed for its owner only, and
generated keys are nobody's.  When a leaf is placed, its owner is a reader
without a recorded leaf.  When a leaf is recorded, its owner has no other leaf,
and when a reader is dropped from the ACL it has none. -/
def careful (owner : PublicKey → Option U) (s : ReaderCalls U) :
    ReaderEvent U → Bool
  | .addReader reader kem =>
      match kem.bind RawKey.imported with
      | some pk => owner pk = some reader
      | none => true
  | .removeReader _ => true
  | .resume i fresh =>
      (owner (generateKey fresh).publicKey).isNone &&
        match s.calls[i]? with
        | some (.addReader reader kem .importKey) =>
            (kem.bind RawKey.imported).isNone ||
              (reader ∈ s.registry.readers &&
                (s.registry.readerLeafIndices.get? reader).isNone)
        | some (.addReader reader _ (.buildWelcome leafIndex)) =>
            (s.registry.leavesOf owner reader).all (· = leafIndex)
        | some (.removeReader reader (.foundLeaf (some leafIndex))) =>
            (s.registry.leavesOf owner reader).all (· = leafIndex)
        | some (.removeReader reader .readersRemove) =>
            (s.registry.leavesOf owner reader).isEmpty
        | _ => true
  | .fail _ => true

/-- The records of the document and the keys of the calls. -/
structure Sound (owner : PublicKey → Option U) (s : ReaderCalls U) :
    Prop where
  registry : s.registry.Sound owner
  keys : ∀ (i : ℕ) reader key phase pk,
    s.calls[i]? = some (.addReader reader (some key) phase) →
      key.imported = some pk → owner pk = some reader

variable {s : ReaderCalls U} {i fresh : ℕ}

theorem careful_fresh (h : s.careful owner (.resume i fresh) = true) :
    owner (generateKey fresh).publicKey = none := by
  rw [careful, Bool.and_eq_true] at h
  exact Option.isNone_iff_eq_none.1 h.1

/-- What a careful step does to the document: a leaf is placed, a leaf is
recorded, a reader is dropped from the ACL or forgotten, or none of these. -/
inductive Change (owner : PublicKey → Option U) (s : ReaderCalls U) :
    ReaderRegistry U → Prop
  | quiet {d' : ReaderRegistry U} (hframe : s.registry.Frame owner d') :
      Change owner s d'
  | placed {i : ℕ} {reader : U} {kem : Option RawKey} {t : Tree}
      {pk : PublicKey}
      (hcall : s.calls[i]? = some (.addReader reader kem .importKey))
      (ht : s.registry.beekem = some t) (howner : owner pk = some reader)
      (hreader : reader ∈ s.registry.readers)
      (hnew : s.registry.readerLeafIndices.get? reader = none) :
      Change owner s
        { s.registry with beekem := some (t.placeMember pk) }
  | recorded {reader : U} {leafIndex : ℕ} {d' : ReaderRegistry U}
      (hsole : ∀ i ∈ s.registry.leavesOf owner reader, i = leafIndex)
      (hframe : { s.registry with readerLeafIndices :=
        s.registry.readerLeafIndices.set reader leafIndex }.Frame owner d') :
      Change owner s d'
  | dropped {reader : U} (hnone : s.registry.leavesOf owner reader = []) :
      Change owner s
        { s.registry with readers := s.registry.readers.erase reader }
  | forgotten (reader : U) :
      Change owner s (s.registry.forgetReader reader)

theorem Change.sound {d : ReaderRegistry U} (h : s.Change owner d)
    (hs : s.registry.Sound owner) : d.Sound owner := by
  cases h with
  | quiet hframe => exact hs.frame hframe
  | placed hcall ht howner hreader hnew =>
      exact hs.place ht howner hreader hnew
  | recorded hsole hframe => exact (hs.record hsole).frame hframe
  | dropped hnone => exact hs.removeFromReaders hnone
  | forgotten reader => exact hs.forget reader

theorem Sound.change_addReader (h : s.Sound owner) {kem : Option RawKey}
    {phase : AddReaderPhase}
    (hcall : s.calls[i]? = some (.addReader reader kem phase))
    (hcareful : s.careful owner (.resume i fresh) = true) :
    s.Change owner (s.registry.resumeAddReader reader kem fresh phase).1 := by
  obtain hframe | ⟨rfl, key, pk, t, rfl, hpk, ht, heq⟩ |
      ⟨leafIndex, rfl, heq⟩ :=
    ReaderRegistry.resumeAddReader_cases (careful_fresh hcareful)
      h.registry.kemKeyPair reader kem phase
  · exact Change.quiet hframe
  · rw [careful, hcall] at hcareful
    simp only [Option.bind_some, hpk, Option.isNone_some, Bool.false_or,
      Bool.and_eq_true, decide_eq_true_eq, Option.isNone_iff_eq_none]
      at hcareful
    rw [heq]
    exact Change.placed hcall ht (h.keys i reader key _ pk hcall hpk)
      hcareful.2.1 hcareful.2.2
  · rw [careful, hcall] at hcareful
    simp only [Bool.and_eq_true, List.all_eq_true, decide_eq_true_eq]
      at hcareful
    rw [heq]
    exact Change.recorded hcareful.2 (ReaderRegistry.Frame.refl owner _)

theorem change_removeReader {phase : RemoveReaderPhase}
    (hcall : s.calls[i]? = some (.removeReader reader phase))
    (hcareful : s.careful owner (.resume i fresh) = true) :
    s.Change owner (s.registry.resumeRemoveReader reader fresh phase).1 := by
  obtain hframe | ⟨leafIndex, rfl, hframe⟩ | ⟨rfl, heq⟩ | heq :=
    ReaderRegistry.resumeRemoveReader_cases (d := s.registry)
      (careful_fresh hcareful) reader phase
  · exact Change.quiet hframe
  · rw [careful, hcall] at hcareful
    simp only [Bool.and_eq_true, List.all_eq_true, decide_eq_true_eq]
      at hcareful
    exact Change.recorded hcareful.2 hframe
  · rw [careful, hcall] at hcareful
    simp only [Bool.and_eq_true, List.isEmpty_iff] at hcareful
    rw [heq]
    exact Change.dropped hcareful.2
  · rw [heq]
    exact Change.forgotten reader

theorem Sound.change (h : s.Sound owner) {event : ReaderEvent U}
    (hcareful : s.careful owner event = true) :
    s.Change owner (s.step event).registry := by
  have hquiet : s.Change owner s.registry :=
    Change.quiet (ReaderRegistry.Frame.refl owner s.registry)
  cases event with
  | addReader reader kem => exact hquiet
  | removeReader reader => exact hquiet
  | resume i fresh =>
      rw [ReaderCalls.step]
      cases hcall : s.calls[i]? with
      | none => exact hquiet
      | some call =>
          cases call with
          | addReader reader kem phase => exact h.change_addReader hcall hcareful
          | removeReader reader phase => exact change_removeReader hcall hcareful
  | fail i =>
      rw [ReaderCalls.step]
      cases s.calls[i]? with
      | none => exact hquiet
      | some call =>
          cases call with
          | addReader reader kem phase => exact hquiet
          | removeReader reader phase =>
              change s.Change owner
                (s.registry.failRemoveReader reader phase).1
              rcases s.registry.failRemoveReader_cases reader phase with
                heq | heq
              · rw [heq]
                exact hquiet
              · rw [heq]
                exact Change.forgotten reader

theorem finished_resumeAddReader {d : ReaderRegistry U}
    {kem : Option RawKey} {phase : AddReaderPhase}
    (h : phase.finished = true) :
    (d.resumeAddReader reader kem fresh phase).2.finished = true := by
  cases phase with
  | returned => rfl
  | threw => rfl
  | _ => cases h

/-- A call of `addReader` after a step has just started or was there before. -/
theorem addReader_of_step {event : ReaderEvent U} {j : ℕ}
    {kem : Option RawKey} {phase : AddReaderPhase}
    (h : (s.step event).calls[j]? = some (.addReader reader kem phase)) :
    event = .addReader reader kem ∨ ∃ phase',
      s.calls[j]? = some (.addReader reader kem phase') ∧
        (phase'.finished = true → phase.finished = true) := by
  cases event with
  | addReader reader' kem' =>
      rcases getElem?_concat h with ⟨-, hold⟩ | ⟨-, hnew⟩
      · exact Or.inr ⟨phase, hold, id⟩
      · cases hnew
        exact Or.inl rfl
  | removeReader reader' =>
      rcases getElem?_concat h with ⟨-, hold⟩ | ⟨-, hnew⟩
      · exact Or.inr ⟨phase, hold, id⟩
      · cases hnew
  | resume i fresh =>
      rw [ReaderCalls.step] at h
      cases hcall : s.calls[i]? with
      | none =>
          rw [hcall] at h
          exact Or.inr ⟨phase, h, id⟩
      | some call =>
          rw [hcall] at h
          rcases getElem?_set_cases h with ⟨rfl, hnew⟩ | hold
          · cases call with
            | addReader reader' kem' phase' =>
                cases hnew
                exact Or.inr ⟨phase', hcall, finished_resumeAddReader⟩
            | removeReader reader' phase' => cases hnew
          · exact Or.inr ⟨phase, hold, id⟩
  | fail i =>
      rw [ReaderCalls.step] at h
      cases hcall : s.calls[i]? with
      | none =>
          rw [hcall] at h
          exact Or.inr ⟨phase, h, id⟩
      | some call =>
          rw [hcall] at h
          rcases getElem?_set_cases h with ⟨rfl, hnew⟩ | hold
          · cases call with
            | addReader reader' kem' phase' =>
                cases hnew
                exact Or.inr ⟨phase', hcall, fun _ => phase'.finished_fail⟩
            | removeReader reader' phase' => cases hnew
          · exact Or.inr ⟨phase, hold, id⟩

theorem Sound.step (h : s.Sound owner) {event : ReaderEvent U}
    (hcareful : s.careful owner event = true) :
    (s.step event).Sound owner where
  registry := (h.change hcareful).sound h.registry
  keys := by
    intro j reader key phase pk hget hpk
    rcases addReader_of_step hget with rfl | ⟨phase', hold, -⟩
    · rw [careful, Option.bind_some, hpk] at hcareful
      exact of_decide_eq_true hcareful
    · exact h.keys j reader key phase' pk hold hpk

/-! ## After a removal -/

/-- A removal is past its leaf: it was past it before, it finds that there is no
reader to remove, or it blanks the leaf that it looked up. -/
theorem resumeRemoveReader_past (owner : PublicKey → Option U)
    {d : ReaderRegistry U}
    {phase : RemoveReaderPhase}
    (h : (d.resumeRemoveReader reader fresh phase).2.past = true) :
    phase.past = true ∨ (phase = .readersCheck ∧ reader ∉ d.readers) ∨
    ∃ leafIndex,
      (phase = .serializePublicKey ∧
          d.readerLeafIndices.get? reader = some leafIndex ∨
        phase = .foundLeaf (some leafIndex)) ∧
      ∀ i ∈ (d.resumeRemoveReader reader fresh phase).1.leavesOf owner reader,
        i ∈ d.leavesOf owner reader ∧ i ≠ leafIndex := by
  cases phase with
  | ensureCurrentUserCanWrite => cases h
  | readersCheck =>
      refine Or.inr (Or.inl ⟨rfl, ?_⟩)
      intro hreader
      rw [ReaderRegistry.resumeRemoveReader, decide_eq_true hreader] at h
      cases h
  | checked isReader =>
      cases isReader with
      | true => cases h
      | false => exact Or.inl rfl
  | serializePublicKey =>
      rw [ReaderRegistry.resumeRemoveReader, ReaderRegistry.lookupLeaf] at h ⊢
      cases hbeekem : d.beekem with
      | none =>
          rw [hbeekem] at h
          cases h
      | some t =>
          rw [hbeekem] at h
          dsimp only at h ⊢
          split at h
          · rename_i leafIndex hrecord
            refine Or.inr (Or.inr ⟨leafIndex, Or.inl ⟨rfl, hrecord⟩, ?_⟩)
            intro i hi
            exact ReaderRegistry.blankReader_leaves hi
          · rw [scanLeaves] at h
            split at h <;> cases h
          · cases h
  | exportLeaf kemPub leafPos publicKey =>
      rw [ReaderRegistry.resumeRemoveReader] at h
      split at h
      · cases h
      · split at h
        · cases h
        · rw [scanLeaves] at h
          split at h <;> cases h
  | foundLeaf leafIndex =>
      cases leafIndex with
      | none => cases h
      | some leafIndex =>
          refine Or.inr (Or.inr ⟨leafIndex, Or.inr rfl, ?_⟩)
          intro i hi
          exact ReaderRegistry.blankReader_leaves (d := { d with
            readerLeafIndices :=
              d.readerLeafIndices.set reader leafIndex }) hi
  | threw => cases h
  | generateKey => exact Or.inl rfl
  | exportLeafKey => exact Or.inl rfl
  | updatePath rest => exact Or.inl rfl
  | deriveKeys => exact Or.inl rfl
  | readersRemove => exact Or.inl rfl
  | putBlock => exact Or.inl rfl
  | publish => exact Or.inl rfl
  | distribute => exact Or.inl rfl
  | addEpochKey => exact Or.inl rfl
  | returned => exact Or.inl rfl

/-- Only a call of `addReader` for the same reader gives a reader a leaf. -/
theorem Sound.leaves_step (h : s.Sound owner) {event : ReaderEvent U}
    (hcareful : s.careful owner event = true) {nodeIndex : ℕ}
    (hnode : nodeIndex ∈ (s.step event).registry.leavesOf owner reader) :
    nodeIndex ∈ s.registry.leavesOf owner reader ∨
      ∃ (j : ℕ) (kem : Option RawKey),
        s.calls[j]? = some (.addReader reader kem .importKey) := by
  have hchange := h.change hcareful
  generalize (s.step event).registry = d at hnode hchange
  cases hchange with
  | quiet hframe => exact Or.inl (hframe.leaves reader nodeIndex hnode)
  | @placed i reader' kem t pk hcall ht howner _ _ =>
      rw [ReaderRegistry.leavesOf, ht]
      refine (ownedNodes_placeMember hnode).imp_right ?_
      intro howner'
      rw [howner] at howner'
      cases howner'
      exact ⟨i, kem, hcall⟩
  | recorded _ hframe => exact Or.inl (hframe.leaves reader nodeIndex hnode)
  | dropped _ => exact Or.inl hnode
  | forgotten reader' => exact Or.inl hnode

/-- All calls of `addReader` for the reader have ended, and if the given call of
`removeReader` is past its leaf then no node holds a key of the reader. -/
structure Revoking (owner : PublicKey → Option U) (reader : U) (call : ℕ)
    (s : ReaderCalls U) : Prop where
  finished : ∀ (j : ℕ) kem phase,
    s.calls[j]? = some (.addReader reader kem phase) → phase.finished = true
  past : ∃ phase, s.calls[call]? = some (.removeReader reader phase) ∧
    (phase.past = true → s.registry.leavesOf owner reader = [])

theorem failRemoveReader_past {d : ReaderRegistry U}
    {phase : RemoveReaderPhase}
    (h : (d.failRemoveReader reader phase).2.past = true) :
    phase.past = true := by
  unfold ReaderRegistry.failRemoveReader at h
  split at h
  · rfl
  · rfl
  · rfl
  · rfl
  · rfl
  · cases h

/-- The given call after a step: where it has come past its leaf, no node holds
a key of the reader. -/
theorem Sound.removeReader_step (h : s.Sound owner) {event : ReaderEvent U}
    (hcareful : s.careful owner event = true) {call : ℕ}
    {phase : RemoveReaderPhase}
    (hcall : s.calls[call]? = some (.removeReader reader phase)) :
    ∃ phase', (s.step event).calls[call]? =
        some (.removeReader reader phase') ∧
      (phase'.past = true → phase.past = true ∨
        (s.step event).registry.leavesOf owner reader = []) := by
  have hlt : call < s.calls.length := (List.getElem?_eq_some_iff.1 hcall).1
  cases event with
  | addReader reader' kem =>
      refine ⟨phase, ?_, Or.inl⟩
      rw [ReaderCalls.step, List.getElem?_append_left hlt]
      exact hcall
  | removeReader reader' =>
      refine ⟨phase, ?_, Or.inl⟩
      rw [ReaderCalls.step, List.getElem?_append_left hlt]
      exact hcall
  | resume i fresh =>
      rw [ReaderCalls.step]
      by_cases hi : i = call
      · subst hi
        rw [hcall]
        refine ⟨(s.registry.resumeRemoveReader reader fresh phase).2, ?_, ?_⟩
        · exact List.getElem?_set_self hlt
        · intro hpast
          rw [careful, hcall, Bool.and_eq_true] at hcareful
          obtain hbefore | ⟨rfl, hreader⟩ | ⟨leafIndex, hleaf, hblank⟩ :=
            resumeRemoveReader_past owner hpast
          · exact Or.inl hbefore
          · refine Or.inr (List.eq_nil_iff_forall_not_mem.2 ?_)
            intro nodeIndex hnode
            exact hreader (h.registry.readers reader nodeIndex hnode)
          · refine Or.inr (List.eq_nil_iff_forall_not_mem.2 ?_)
            intro nodeIndex hnode
            obtain ⟨hold, hne⟩ := hblank nodeIndex hnode
            rcases hleaf with ⟨rfl, hrecord⟩ | rfl
            · exact hne (h.registry.recorded reader nodeIndex leafIndex hold
                hrecord)
            · simp only [List.all_eq_true, decide_eq_true_eq] at hcareful
              exact hne (hcareful.2 nodeIndex hold)
      · refine ⟨phase, ?_, Or.inl⟩
        cases s.calls[i]? with
        | none => exact hcall
        | some call' => exact (List.getElem?_set_ne hi).trans hcall
  | fail i =>
      rw [ReaderCalls.step]
      by_cases hi : i = call
      · subst hi
        rw [hcall]
        refine ⟨(s.registry.failRemoveReader reader phase).2, ?_, ?_⟩
        · exact List.getElem?_set_self hlt
        · intro hpast
          exact Or.inl (failRemoveReader_past hpast)
      · refine ⟨phase, ?_, Or.inl⟩
        cases s.calls[i]? with
        | none => exact hcall
        | some call' => exact (List.getElem?_set_ne hi).trans hcall

theorem Revoking.step {call : ℕ} (h : s.Revoking owner reader call)
    (hsound : s.Sound owner) {event : ReaderEvent U}
    (hcareful : s.careful owner event = true)
    (hother : ∀ kem, event ≠ .addReader reader kem) :
    (s.step event).Revoking owner reader call where
  finished := by
    intro j kem phase hget
    rcases addReader_of_step hget with heq | ⟨phase', hold, hfinished⟩
    · exact absurd heq (hother kem)
    · exact hfinished (h.finished j kem phase' hold)
  past := by
    obtain ⟨phase, hcall, hpast⟩ := h.past
    obtain ⟨phase', hcall', hpast'⟩ :=
      hsound.removeReader_step hcareful hcall
    refine ⟨phase', hcall', ?_⟩
    intro hphase'
    rcases hpast' hphase' with hphase | hnone
    · refine List.eq_nil_iff_forall_not_mem.2 ?_
      intro nodeIndex hnode
      rcases hsound.leaves_step hcareful hnode with hold | ⟨j, kem, hplacing⟩
      · rw [hpast hphase] at hold
        cases hold
      · cases h.finished j kem _ hplacing
    · exact hnone

/-- The two invariants of a run after the start of a removal. -/
theorem revoking_exec {call : ℕ} :
    ∀ {events : List (ReaderEvent U)} {s : ReaderCalls U},
      s.Sound owner → s.Revoking owner reader call →
      Guarded step (fun s event => s.careful owner event = true) s events →
      (∀ kem, .addReader reader kem ∉ events) →
      (exec step s events).Revoking owner reader call := by
  intro events
  induction events with
  | nil =>
      intro s _ h _ _
      exact h
  | cons event events ih =>
      intro s hsound h hcareful hlater
      refine ih (hsound.step hcareful.1) ?_ hcareful.2 ?_
      · refine h.step hsound hcareful.1 ?_
        rintro kem rfl
        exact hlater kem List.mem_cons_self
      · intro kem hmem
        exact hlater kem (List.mem_cons_of_mem event hmem)

/-- A resolution is a key of the tree. -/
theorem publicKeyAt_of_resolve {t : Tree} {pk : PublicKey} :
    ∀ {n nodeIndex : ℕ},
      t.resolve TreeNode.publicKey n nodeIndex = .ok (some pk) →
        ∃ j, t.publicKeyAt j = some pk := by
  intro n
  induction n with
  | zero =>
      intro nodeIndex h
      cases h
  | succ n ih =>
      intro nodeIndex h
      rw [Tree.resolve] at h
      split at h
      · rename_i k hkey
        cases h
        exact ⟨nodeIndex, hkey⟩
      · split at h
        · rcases hl : liftTree (left nodeIndex) with e | leftChild
          · rw [hl] at h
            cases h
          rcases hr : liftTree (right nodeIndex t.numLeaves) with
            e | rightChild
          · rw [hl, hr] at h
            cases h
          rcases hleft : t.resolve TreeNode.publicKey n leftChild with
            e | leftKey
          · rw [hl, hr] at h
            simp only [bind, Except.bind, hleft] at h
            cases h
          rw [hl, hr] at h
          simp only [bind, Except.bind, hleft] at h
          cases leftKey with
          | some k =>
              cases h
              exact ih hleft
          | none => exact ih h
        · cases h

/-- Whatever calls are interleaved and wherever they throw: if every step is
careful, then once a call of `removeReader` has returned, and no call of
`addReader` for the reader ran or started since it began, no node of the tree
holds a KEM key that was passed for the reader, and a path key is sealed to
none. -/
theorem removed_reader_has_no_leaf {d : ReaderRegistry U}
    (hd : d.Sound owner) (reader : U) (before after : List (ReaderEvent U))
    (hcareful : Guarded step (fun s event => s.careful owner event = true)
      (new d) (before ++ .removeReader reader :: after))
    (hfinished : ∀ (j : ℕ) kem phase, (exec step (new d) before).calls[j]? =
      some (.addReader reader kem phase) → phase.finished = true)
    (hlater : ∀ kem, .addReader reader kem ∉ after)
    (hreturned : (exec step (new d) (before ++ .removeReader reader ::
        after)).calls[(exec step (new d) before).calls.length]? =
      some (.removeReader reader .returned))
    {key : RawKey} {pk : PublicKey}
    (hkey : .addReader reader (some key) ∈ before)
    (hpk : key.imported = some pk) {t : Tree}
    (ht : (exec step (new d) (before ++ .removeReader reader ::
      after)).registry.beekem = some t) (nodeIndex : ℕ) :
    t.publicKeyAt nodeIndex ≠ some pk ∧
      t.resolvePublicKey nodeIndex ≠ .ok (some pk) := by
  obtain ⟨hbefore, hremove, hafter⟩ := guarded_append_iff.1 hcareful
  have howner : owner pk = some reader := by
    obtain ⟨s', hs'⟩ := hbefore.of_mem _ hkey
    rw [careful, Option.bind_some, hpk] at hs'
    exact of_decide_eq_true hs'
  have hsound : (exec step (new d) before).Sound owner := by
    refine exec_invariant (fun s event h hs => h.step hs) before (new d) ?_
      hbefore
    refine ⟨hd, ?_⟩
    intro i reader' key' phase pk' hget
    cases hget
  have hstart : ((exec step (new d) before).step
      (.removeReader reader)).Revoking owner reader
        (exec step (new d) before).calls.length := by
    constructor
    · intro j kem phase hget
      rcases addReader_of_step hget with heq | ⟨phase', hold, himp⟩
      · cases heq
      · exact himp (hfinished j kem phase' hold)
    · refine ⟨.ensureCurrentUserCanWrite, ?_, ?_⟩
      · exact List.getElem?_concat_length
      · intro hpast
        cases hpast
  have hend := revoking_exec (hsound.step hremove) hstart hafter hlater
  rw [exec_append, exec_cons] at hreturned ht
  obtain ⟨phase, hphase, hnone⟩ := hend.past
  rw [hphase] at hreturned
  cases hreturned
  have hleaves : ownedNodes owner reader t = [] := by
    have hnil := hnone rfl
    rw [ReaderRegistry.leavesOf, ht] at hnil
    exact hnil
  have habsent : ∀ j, t.publicKeyAt j ≠ some pk := by
    intro j hj
    have hmem : j ∈ ownedNodes owner reader t := by
      rw [mem_ownedNodes, hj]
      exact howner
    rw [hleaves] at hmem
    cases hmem
  refine ⟨habsent nodeIndex, ?_⟩
  intro hresolve
  obtain ⟨j, hj⟩ := publicKeyAt_of_resolve hresolve
  exact habsent j hj

/-! ## Two runs -/

/-- A founder with key pair `0` before any call. -/
def founder : ReaderRegistry ℕ := ⟨∅, 0, some ⟨0⟩, none, .empty, .empty⟩

/-- Key `5` belongs to reader `1`. -/
def ownerOfFive (pk : PublicKey) : Option ℕ := if pk.id = 5 then some 1 else none

/-- A call of `addReader` from its start to its end. -/
def addAlone (call : ℕ) : List (ReaderEvent ℕ) :=
  .addReader 1 (some (rawKey ⟨5⟩)) ::
    (List.range 14).map fun k => .resume call (10 + k)

/-- The steps of a call of `removeReader` after its start. -/
def removeSteps (call : ℕ) : List (ReaderEvent ℕ) :=
  (List.range 15).map fun k => .resume call (100 + k)

theorem founder_sound : founder.Sound ownerOfFive where
  kemKeyPair := by
    intro sk hsk
    cases hsk
    rfl
  readers := by
    intro reader i hi
    cases hi
  recorded := by
    intro reader i leafIndex hi
    cases hi

/-- Reader `1` is added and removed, one call after the other. -/
theorem removed_reader_alone :
    ∃ t, (exec step (new founder) (addAlone 0 ++ .removeReader 1 ::
        removeSteps 1)).registry.beekem = some t ∧
      ∀ nodeIndex, t.publicKeyAt nodeIndex ≠ some ⟨5⟩ ∧
        t.resolvePublicKey nodeIndex ≠ .ok (some ⟨5⟩) := by
  have hsome : (exec step (new founder) (addAlone 0 ++ .removeReader 1 ::
      removeSteps 1)).registry.beekem.isSome = true := by
    decide +kernel
  obtain ⟨t, ht⟩ := Option.isSome_iff_exists.1 hsome
  refine ⟨t, ht, ?_⟩
  intro nodeIndex
  refine removed_reader_has_no_leaf founder_sound 1 (addAlone 0)
    (removeSteps 1) (by decide +kernel) ?_ ?_ (by decide +kernel)
    List.mem_cons_self rfl ht nodeIndex
  · have hcalls : (exec step (new founder) (addAlone 0)).calls =
        [.addReader 1 (some (rawKey ⟨5⟩)) .returned] := by
      decide +kernel
    intro j kem phase hget
    rw [hcalls] at hget
    have hmem := List.mem_of_getElem? hget
    rw [List.mem_singleton] at hmem
    cases hmem
    rfl
  · intro kem hmem
    obtain ⟨k, -, hk⟩ := List.mem_map.1 hmem
    cases hk

/-- Two calls of `addReader` for reader `1` that overlap: both find that there
is no recorded leaf before either has placed one. -/
def addTwice : List (ReaderEvent ℕ) :=
  [.addReader 1 (some (rawKey ⟨5⟩)), .addReader 1 (some (rawKey ⟨5⟩)),
    .resume 0 0, .resume 1 0, .resume 0 0, .resume 0 0, .resume 0 0,
    .resume 0 0, .resume 0 0, .resume 1 0, .resume 1 0, .resume 0 0,
    .resume 1 0, .resume 0 0, .resume 1 0, .resume 0 0, .resume 1 0] ++
    ((List.range 6).map fun k => .resume 0 (10 + k)) ++
    (List.range 6).map fun k => .resume 1 (20 + k)

/-- After these two calls `removeReader` returns and leaves a leaf with the key
of reader `1`, although nobody else uses the key. -/
theorem overlapping_registrations_leave_leaf :
    ¬ ∀ (owner : PublicKey → Option ℕ) (d : ReaderRegistry ℕ) (reader : ℕ)
      (before after : List (ReaderEvent ℕ)), d.Sound owner →
      (∀ reader' key pk, .addReader reader' (some key) ∈ before ++ after →
        key.imported = some pk → owner pk = some reader') →
      (∀ (j : ℕ) kem phase, (exec step (new d) before).calls[j]? =
        some (.addReader reader kem phase) → phase.finished = true) →
      (∀ kem, .addReader reader kem ∉ after) →
      (exec step (new d) (before ++ .removeReader reader ::
          after)).calls[(exec step (new d) before).calls.length]? =
        some (.removeReader reader .returned) →
      ∀ key pk, .addReader reader (some key) ∈ before →
        key.imported = some pk →
        ∀ t, (exec step (new d) (before ++ .removeReader reader ::
            after)).registry.beekem = some t →
          ∀ nodeIndex, t.publicKeyAt nodeIndex ≠ some pk := by
  intro h
  have hkept : (exec step (new founder) (addTwice ++ .removeReader 1 ::
      removeSteps 2)).registry.beekem.bind (·.publicKeyAt 2) =
        some ⟨5⟩ := by
    decide +kernel
  obtain ⟨t, ht, hleaf⟩ := Option.bind_eq_some_iff.1 hkept
  have hcalls : (exec step (new founder) addTwice).calls =
      [.addReader 1 (some (rawKey ⟨5⟩)) .returned,
        .addReader 1 (some (rawKey ⟨5⟩)) .returned] := by
    decide +kernel
  refine h ownerOfFive founder 1 addTwice (removeSteps 2) founder_sound ?_ ?_
    ?_ (by decide +kernel) (rawKey ⟨5⟩) ⟨5⟩ List.mem_cons_self rfl t ht 2
    hleaf
  · intro reader' key pk hmem hpk
    have hadded : reader' = 1 ∧ key = rawKey ⟨5⟩ := by
      simpa [addTwice, removeSteps] using hmem
    obtain ⟨rfl, rfl⟩ := hadded
    cases hpk
    rfl
  · intro j kem phase hget
    rw [hcalls] at hget
    have hmem := List.mem_of_getElem? hget
    rw [List.mem_cons, List.mem_singleton, or_self] at hmem
    cases hmem
    rfl
  · intro kem hmem
    obtain ⟨k, -, hk⟩ := List.mem_map.1 hmem
    cases hk

end ReaderCalls

end Calls

end Collabswarm.Document
