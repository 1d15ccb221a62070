import Collabswarm.BeeKEM.Receive
import Collabswarm.Support.Transition

/-!
# A BeeKEM group under in-order delivery

One founder initialises a tree and members then add, remove and update in
turn.  Every emitted path update is handed at once to all other current
members, every Welcome to the new instance of the joiner.  The group state also
records what the properties of later modules speak about: the sealed keys that
were emitted, the private keys each member ever held, the root keys that were
installed and the errors that receivers threw.
-/

namespace Collabswarm.BeeKEM

open TreeMath

/-! ## The group -/

/-- The private keys a tree stores. -/
def Tree.privateKeys (t : Tree) : List PrivateKey :=
  t.nodes.entries.filterMap fun e => e.2.privateKey

/-- The state of a group; members are named by numbers. -/
structure Group where
  members : InsertionMap ℕ Tree
  nextKey : ℕ
  emitted : List Sealed
  held : List (ℕ × PrivateKey)
  rootKeys : List PrivateKey
  thrown : List Error

/-- What members do.  `generate` is a prospective member generating the key
pair it joins with.  `removeMember sender leafIndex gone` calls
`removeMember(leafIndex)` while the member `gone` leaves. -/
inductive Operation where
  | generate
  | addMember (sender joiner : ℕ) (key : PrivateKey)
  | removeMember (sender leafIndex gone : ℕ)
  | update (sender : ℕ)
deriving DecidableEq, Repr

namespace Group

/-- The founder, member `0`, alone. -/
def found (sk : PrivateKey) : Group where
  members := InsertionMap.empty.set 0 (Tree.initializeTree sk)
  nextKey := sk.id + 1
  emitted := []
  held := [(0, sk)]
  rootKeys := []
  thrown := []

/-- Note the private keys that the members hold now. -/
def recordHeld (g : Group) : Group :=
  { g with held := g.held ++ g.members.entries.flatMap fun e =>
      e.2.privateKeys.map (e.1, ·) }

/-- The root's private key if it was generated from `fresh` on. -/
def installedRoot (fresh : ℕ) (t : Tree) : Option PrivateKey :=
  ((root t.numLeaves).bind t.privateKeyAt).filter (fresh ≤ ·.id)

/-- Keep the sender's tree after its own operation, finished or not. -/
def commit {α : Type} (g : Group) (sender : ℕ) (out : Tree.Outcome α) :
    Group :=
  { g with
    members := g.members.set sender out.tree
    nextKey := out.fresh
    rootKeys := g.rootKeys ++ (installedRoot g.nextKey out.tree).toList }

/-- The sealed keys of a list of update nodes. -/
def sealedKeys (nodes : List PathNodeUpdate) : List Sealed :=
  nodes.map PathNodeUpdate.encryptedPrivateKey

/-- The error of a call, if it threw. -/
def errorOf {α : Type} : Except Error α → Option Error
  | .ok _ => none
  | .error e => some e

/-- Hand a path update to every other current member. -/
def deliver (g : Group) (sender : ℕ) (u : PathUpdate) : Group :=
  { g with
    members := g.members.mapValues fun id t =>
      if id = sender then t else (t.processPathUpdate u).1
    emitted := g.emitted ++ sealedKeys u.nodes
    thrown := g.thrown ++ g.members.entries.filterMap fun e =>
      if e.1 = sender then none else errorOf (e.2.processPathUpdate u).2 }

/-- Hand a Welcome to the new instance of the joiner. -/
def welcome (g : Group) (joiner : ℕ) (w : Welcome) (key : PrivateKey) :
    Group :=
  let joined := Tree.new.processWelcome w key
  { g with
    members := g.members.set joiner joined.1
    emitted := g.emitted ++ sealedKeys w.pathKeys
    thrown := g.thrown ++ (errorOf joined.2).toList }

/-- One operation and its delivery.  It needs a current member as sender; a
joiner must be new and bring a key pair that was generated. -/
def step (g : Group) : Operation → Group
  | .generate => { g with nextKey := g.nextKey + 1 }
  | .addMember sender joiner key =>
      match g.members.get? sender, g.members.get? joiner with
      | some t, none =>
          if g.nextKey ≤ key.id then g
          else
            let out := t.addMember key.publicKey g.nextKey
            match out.result with
            | .error _ => (g.commit sender out).recordHeld
            | .ok (u, w, _) =>
                (((g.commit sender out).deliver sender u).welcome joiner w
                  key).recordHeld
      | _, _ => g
  | .removeMember sender leafIndex gone =>
      match g.members.get? sender with
      | none => g
      | some t =>
          let out := t.removeMember leafIndex g.nextKey
          let g := (g.commit sender out).recordHeld
          match out.result with
          | .error _ => g
          | .ok (u, _) =>
              ({ g with members := g.members.erase gone } |>.deliver sender
                u).recordHeld
  | .update sender =>
      match g.members.get? sender with
      | none => g
      | some t =>
          let out := t.update g.nextKey
          let g := (g.commit sender out).recordHeld
          match out.result with
          | .error _ => g
          | .ok (u, _) => (g.deliver sender u).recordHeld

theorem get?_commit {α : Type} (g : Group) (sender : ℕ) (out : Tree.Outcome α)
    (id : ℕ) :
    (g.commit sender out).members.get? id =
      if id = sender then some out.tree else g.members.get? id :=
  InsertionMap.get?_set _ _ _ _

end Group

end Collabswarm.BeeKEM
