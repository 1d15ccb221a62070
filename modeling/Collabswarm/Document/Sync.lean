import Mathlib.Data.Finset.Basic
import Mathlib.Data.Prod.Lex
import Mathlib.Order.WithBot
import Collabswarm.Support.InsertionMap

/-!
# Applying sync messages

`sync`, `_syncDocumentChanges` and `mergeRemoteSyncTree`.  A change is named by
the CID of its block, the document and the state of a snapshot are sets of
changes, and applying is union.  Signatures are valid, the ACLs are left out,
every block can be fetched, and automatic compaction is off, as it is by
default.  CIDs are an arbitrary linear order.
-/

namespace Collabswarm.Document

/-- The kinds of change nodes. -/
inductive NodeKind where
  | document
  | writer
  | reader
deriving DecidableEq, Repr

mutual

/-- A node of a change tree; `hasChange` says that its payload is inline. -/
inductive ChangeNode (C : Type) where
  | mk (kind : NodeKind) (hasChange : Bool) (children : Children C)

/-- The `children` field: `undefined`, deferred, or a map from CIDs. -/
inductive Children (C : Type) where
  | absent
  | deferred
  | present (nodes : ChildList C)

/-- The entries of a map of children. -/
inductive ChildList (C : Type) where
  | nil
  | cons (cid : C) (node : ChangeNode C) (rest : ChildList C)

end

namespace ChangeNode

variable {C : Type}

def kind : ChangeNode C → NodeKind
  | .mk kind _ _ => kind

def hasChange : ChangeNode C → Bool
  | .mk _ hasChange _ => hasChange

def children : ChangeNode C → Children C
  | .mk _ _ children => children

end ChangeNode

/-- The entries as a list. -/
def ChildList.toList {C : Type} : ChildList C → List (C × ChangeNode C)
  | .nil => []
  | .cons cid node rest => (cid, node) :: rest.toList

/-- A snapshot; the CID is `⊥` where the source has an empty string. -/
structure Snapshot (C : Type) where
  state : Finset C
  lastChangeNodeCID : WithBot C
  compactedCount : ℕ

/-- A sync message. -/
structure SyncMessage (C : Type) where
  changeId : Option C
  changes : Option (ChangeNode C)
  snapshot : Option (Snapshot C)

/-- What `sync` reads and writes: `_hashes`, `_document`, `_latestSnapshot` and
the root CID of `_lastSyncMessage`. -/
structure SyncState (C : Type) where
  hashes : Finset C
  document : Finset C
  latestSnapshot : Option (Snapshot C)
  lastChangeId : Option C

/-- A new document. -/
def SyncState.fresh {C : Type} : SyncState C := ⟨∅, ∅, none, none⟩

/-! ## The walk over a remote tree -/

/-- The walk's `byCid`, with kind and inline payload, and `walked`. -/
structure Walk (C : Type) where
  byCid : InsertionMap C (NodeKind × Bool)
  walked : List C

section Walk

variable {C : Type} [DecidableEq C]

/-- Keep the first entry of a CID, unless a later one has the payload. -/
def Walk.record (w : Walk C) (cid : C) (n : ChangeNode C) : Walk C :=
  match w.byCid.get? cid with
  | none => { w with byCid := w.byCid.set cid (n.kind, n.hasChange) }
  | some existing =>
      if existing.2 = false ∧ n.hasChange = true then
        { w with byCid := w.byCid.set cid (n.kind, n.hasChange) }
      else w

mutual

/-- `walk`; `none` where the source throws because children are deferred. -/
def walkNode (known : C → Bool) (cid : C) (w : Walk C) :
    ChangeNode C → Option (Walk C)
  | .mk kind hasChange children =>
      if known cid then some w
      else
        let w := w.record cid (.mk kind hasChange children)
        if cid ∈ w.walked then some w
        else walkChildren known cid w children

/-- The part of `walk` below a node. -/
def walkChildren (known : C → Bool) (cid : C) (w : Walk C) :
    Children C → Option (Walk C)
  | .absent => some w
  | .deferred => none
  | .present nodes =>
      walkList known { w with walked := cid :: w.walked } nodes

/-- The loop of `walk` over the children. -/
def walkList (known : C → Bool) (w : Walk C) :
    ChildList C → Option (Walk C)
  | .nil => some w
  | .cons cid node rest =>
      match walkNode known cid w node with
      | none => none
      | some w => walkList known w rest

end

/-- `mergeRemoteSyncTree`: the entries that are new to us. -/
def mergeRemoteSyncTree (remoteRootId : Option C) (remoteRoot : ChangeNode C)
    (localRootId : Option C) (localHashes : Finset C) :
    Option (List (C × NodeKind × Bool)) :=
  match remoteRootId with
  | none => some []
  | some rootId =>
      (walkNode (fun cid => some cid = localRootId || cid ∈ localHashes)
        rootId ⟨.empty, []⟩ remoteRoot).map fun w => w.byCid.entries

mutual

/-- The walk of `treeContainsCid`, with the CIDs visited so far. -/
def containsNode (target cid : C) (visited : List C) :
    ChangeNode C → Bool × List C
  | .mk _ _ children =>
      if cid ∈ visited then (false, visited)
      else containsChildren target (cid :: visited) children

/-- The part of that walk below a node. -/
def containsChildren (target : C) (visited : List C) :
    Children C → Bool × List C
  | .absent => (false, visited)
  | .deferred => (false, visited)
  | .present nodes => containsList target visited nodes

/-- The loop of that walk over the children. -/
def containsList (target : C) (visited : List C) :
    ChildList C → Bool × List C
  | .nil => (false, visited)
  | .cons cid node rest =>
      if cid = target then (true, visited)
      else
        match containsNode target cid visited node with
        | (true, visited) => (true, visited)
        | (false, visited) => containsList target visited rest

end

/-- `treeContainsCid`. -/
def treeContainsCid (rootId : C) (root : ChangeNode C) (target : C) : Bool :=
  rootId = target || (containsNode target rootId [] root).1

end Walk

namespace SyncState

variable {C : Type} [LinearOrder C]

/-- Apply the change of an entry. -/
def applyEntry (s : SyncState C) (entry : C × NodeKind × Bool) :
    SyncState C :=
  { s with
    hashes := insert entry.1 s.hashes
    document := if entry.2.1 = .document then insert entry.1 s.document
      else s.document }

/-- `_refreshLastSyncMessageFromSync`. -/
def refreshLastSyncMessageFromSync (s : SyncState C)
    (receivedChangeId : Option C) (receivedChanges : ChangeNode C) :
    SyncState C :=
  match receivedChangeId, s.lastChangeId with
  | none, _ => s
  | some received, none => { s with lastChangeId := some received }
  | some received, some prior =>
      if prior = received then s
      else if treeContainsCid received receivedChanges prior then
        { s with lastChangeId := some received }
      else s

/-- `_syncDocumentChanges`: first the changes that were sent, then those that
are fetched.  It throws where the tree has deferred children. -/
def syncDocumentChanges (s : SyncState C) (changeId : Option C)
    (changes : ChangeNode C) : SyncState C × Bool :=
  match mergeRemoteSyncTree changeId changes s.lastChangeId s.hashes with
  | none => (s, false)
  | some entries =>
      let sent := entries.filter fun entry => entry.2.2
      let missing := entries.filter fun entry => !entry.2.2
      (((missing.foldl applyEntry (sent.foldl applyEntry s))
        ).refreshLastSyncMessageFromSync changeId changes, true)

/-- Whether a snapshot replaces the latest one. -/
def newer (incoming : Snapshot C) : Option (Snapshot C) → Bool
  | none => true
  | some latest =>
      decide (latest.compactedCount < incoming.compactedCount) ||
        (incoming.compactedCount = latest.compactedCount &&
          decide (latest.lastChangeNodeCID < incoming.lastChangeNodeCID))

/-- Adopt a snapshot that is newer than ours. -/
def adoptSnapshot (s : SyncState C) : Option (Snapshot C) → SyncState C
  | none => s
  | some incoming =>
      if newer incoming s.latestSnapshot then
        { s with
          document := s.document ∪ incoming.state
          latestSnapshot := some incoming
          hashes := match incoming.lastChangeNodeCID with
            | ⊥ => s.hashes
            | (cid : C) => insert cid s.hashes }
      else s

/-- `sync`, with whether it returned. -/
def sync (s : SyncState C) (message : SyncMessage C) : SyncState C × Bool :=
  let s := s.adoptSnapshot message.snapshot
  match message.changes with
  | none => (s, true)
  | some changes => s.syncDocumentChanges message.changeId changes

end SyncState

end Collabswarm.Document
