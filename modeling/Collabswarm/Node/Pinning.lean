import Collabswarm.Merkle.ChangeTree
import Collabswarm.Support.InsertionSet
import Collabswarm.Support.Semaphore

/-!
# The pinning node

A `CollabswarmNode` pins the blocks of the documents that are published to it.
Every CID of a published change tree and of a later update is handed to
`_pinCID`, which skips what is pinned or being pinned and limits how many pins
run at once: it awaits `_acquirePinSlot` and gives its slot to the next waiting
call when its pin settles.  An event is one stretch of code between two awaits;
the blockstore may settle the pins in any order, and each may fail.
-/

namespace Collabswarm.Node

open Merkle (ChangeTree ChildMap ChildEntries Occurs)

variable {C L : Type} [DecidableEq C]

/-- `CollabswarmNode.MAX_CONCURRENT_PINS`. -/
def maxConcurrentPins : ℕ := 10

/-- What a `CollabswarmNode` knows of its pins.  `resumable` are the calls of
`_pinCID` whose `_acquirePinSlot` has resolved, `pins` those that iterate over
`pins.add`. -/
structure CollabswarmNode (C : Type) where
  seenCids : InsertionSet C
  pinningCids : InsertionSet C
  pinQueue : List C
  activePins : ℕ
  resumable : List C
  pins : List C

namespace CollabswarmNode

/-- A node that has pinned nothing. -/
def new : CollabswarmNode C :=
  ⟨InsertionSet.empty, InsertionSet.empty, [], 0, [], []⟩

/-- `_acquirePinSlot`, awaited by the call for `cid`. -/
def acquirePinSlot (n : CollabswarmNode C) (cid : C) : CollabswarmNode C :=
  if n.activePins < maxConcurrentPins then
    { n with
      activePins := n.activePins + 1
      resumable := n.resumable ++ [cid] }
  else { n with pinQueue := n.pinQueue ++ [cid] }

/-- `_releasePinSlot`. -/
def releasePinSlot (n : CollabswarmNode C) : CollabswarmNode C :=
  match n.pinQueue with
  | next :: rest =>
      { n with pinQueue := rest, resumable := n.resumable ++ [next] }
  | [] => { n with activePins := n.activePins - 1 }

/-- `_pinCID` up to its await; `parses` tells whether `CID.parse` returns. -/
def pinCID (parses : C → Bool) (n : CollabswarmNode C) (cid : C) :
    CollabswarmNode C :=
  if cid ∈ n.seenCids.toList ∨ cid ∈ n.pinningCids.toList then n
  else if parses cid then
    acquirePinSlot { n with pinningCids := n.pinningCids.add cid } cid
  else n

/-- `_pinCID` goes on with its slot and calls `pins.add`. -/
def resume (n : CollabswarmNode C) (cid : C) : CollabswarmNode C :=
  if cid ∈ n.resumable then
    { n with resumable := n.resumable.erase cid, pins := n.pins ++ [cid] }
  else n

/-- The iteration over `pins.add` ends or throws, and `_pinCID` with it. -/
def settle (n : CollabswarmNode C) (cid : C) (pinned : Bool) :
    CollabswarmNode C :=
  if cid ∈ n.pins then
    releasePinSlot
      { n with
        pins := n.pins.erase cid
        seenCids := if pinned then n.seenCids.add cid else n.seenCids
        pinningCids := n.pinningCids.delete cid }
  else n

end CollabswarmNode

open CollabswarmNode

mutual

/-- The calls of `_pinCID` that `_pinNewCIDs` makes.  It throws at deferred
children, but only after the call for their parent. -/
def pinNewCIDs (cid : C) : ChangeTree C L → List C
  | .node _ children => cid :: pinNewChildren children

/-- The calls for the `children` field of a node. -/
def pinNewChildren : ChildMap C L → List C
  | .absent => []
  | .deferred => []
  | .present entries => pinNewEntries entries

/-- The calls for the entries of a map of children. -/
def pinNewEntries : ChildEntries C L → List C
  | .nil => []
  | .cons cid child rest => pinNewCIDs cid child ++ pinNewEntries rest

end

/-- A stretch of code that handles pins. -/
inductive PinEvent (C : Type) where
  | pin (cid : C)
  | resume (cid : C)
  | settle (cid : C) (pinned : Bool)

/-- What happens at a node: a message with a change tree is published to it, a
document that it listens to reports the hashes of an update, a call of
`_pinCID` goes on, or a pin settles. -/
inductive NodeEvent (C L : Type) where
  | published (changeId : C) (changes : ChangeTree C L)
  | updated (hashes : List C)
  | resumed (cid : C)
  | settled (cid : C) (pinned : Bool)

/-- The stretches of code that run for an event. -/
def NodeEvent.pinEvents : NodeEvent C L → List (PinEvent C)
  | .published changeId changes => (pinNewCIDs changeId changes).map .pin
  | .updated hashes => hashes.map .pin
  | .resumed cid => [.resume cid]
  | .settled cid pinned => [.settle cid pinned]

variable (parses : C → Bool)

/-- One stretch of code. -/
def pinStep (n : CollabswarmNode C) : PinEvent C → CollabswarmNode C
  | .pin cid => n.pinCID parses cid
  | .resume cid => n.resume cid
  | .settle cid pinned => n.settle cid pinned

/-- One event. -/
def step (n : CollabswarmNode C) (e : NodeEvent C L) : CollabswarmNode C :=
  exec (pinStep parses) n e.pinEvents

/-! ## Calls in order -/

section Calls

omit [DecidableEq C]

mutual

theorem pinNewCIDs_eq (cid : C) : ∀ n : ChangeTree C L,
    pinNewCIDs cid n = (n.occurrences cid).map Prod.fst
  | .node _ children => by
      rw [pinNewCIDs, ChangeTree.occurrences, List.map_cons,
        pinNewChildren_eq]

theorem pinNewChildren_eq : ∀ children : ChildMap C L,
    pinNewChildren children = children.occurrences.map Prod.fst
  | .absent => rfl
  | .deferred => rfl
  | .present entries => by
      rw [pinNewChildren, ChildMap.occurrences, pinNewEntries_eq]

theorem pinNewEntries_eq : ∀ entries : ChildEntries C L,
    pinNewEntries entries = entries.occurrences.map Prod.fst
  | .nil => rfl
  | .cons cid child rest => by
      rw [pinNewEntries, ChildEntries.occurrences, List.map_append,
        pinNewCIDs_eq, pinNewEntries_eq]

end

/-- Every CID of the tree is handed to `_pinCID`. -/
theorem mem_pinNewCIDs {changeId c : C} {changes : ChangeTree C L} :
    c ∈ pinNewCIDs changeId changes ↔
      ∃ m, Occurs [(changeId, changes)] c m := by
  have hocc : ∀ e : C × ChangeTree C L,
      e ∈ changes.occurrences changeId ↔
        Occurs [(changeId, changes)] e.1 e.2 := by
    intro e
    rw [ChangeTree.mem_occurrences, Merkle.occurs_cons_iff,
      Merkle.occurs_nil_iff, or_false]
  rw [pinNewCIDs_eq, List.mem_map]
  constructor
  · rintro ⟨e, he, rfl⟩
    exact ⟨e.2, (hocc e).1 he⟩
  · rintro ⟨m, hm⟩
    exact ⟨(c, m), (hocc (c, m)).2 hm, rfl⟩

end Calls

/-- A run is a run of its stretches of code. -/
theorem exec_step (events : List (NodeEvent C L)) (n : CollabswarmNode C) :
    exec (step parses) n events =
      exec (pinStep parses) n (events.flatMap NodeEvent.pinEvents) := by
  induction events generalizing n with
  | nil => rfl
  | cons e events ih =>
      rw [exec_cons, ih, List.flatMap_cons, exec_append]
      rfl

/-! ## The slots -/

namespace CollabswarmNode

omit [DecidableEq C] in
/-- The calls of `_pinCID` as the tasks of a semaphore. -/
def slots (n : CollabswarmNode C) : Semaphore C :=
  ⟨↑(n.resumable ++ n.pins), n.pinQueue⟩

/-- The calls that hold a slot are counted, at most ten at a time; all calls
under way are for different CIDs that are not yet pinned, and `_pinningCids` has
exactly these. -/
structure Inv (n : CollabswarmNode C) : Prop where
  fits : n.slots.Fits maxConcurrentPins
  active : n.activePins = n.slots.holding.card
  tasks : n.slots.tasks = ↑n.pinningCids.toList
  fresh : ∀ c ∈ n.pinningCids.toList, c ∉ n.seenCids.toList

omit [DecidableEq C] in
theorem inv_new : Inv (new : CollabswarmNode C) where
  fits := ⟨Nat.zero_le _, fun h => absurd rfl h⟩
  active := rfl
  tasks := rfl
  fresh := by
    intro c hc
    cases hc

variable {n : CollabswarmNode C} {parses}

omit [DecidableEq C] in
theorem slots_acquirePinSlot (h : n.activePins = n.slots.holding.card)
    (cid : C) :
    (n.acquirePinSlot cid).slots =
      n.slots.acquire maxConcurrentPins cid := by
  unfold acquirePinSlot Semaphore.acquire
  rw [h]
  split
  case isTrue =>
    have hmid : n.resumable ++ [cid] ++ n.pins =
        n.resumable ++ cid :: n.pins := by simp
    unfold slots
    rw [Multiset.cons_coe]
    dsimp only
    rw [hmid, Multiset.coe_eq_coe.2 List.perm_middle]
  case isFalse => rfl

omit [DecidableEq C] in
theorem slots_releasePinSlot : n.releasePinSlot.slots = n.slots.pass := by
  unfold releasePinSlot Semaphore.pass slots
  cases n.pinQueue with
  | nil => rfl
  | cons next rest => simp [List.perm_middle]

theorem slots_settle {cid : C} (hcid : cid ∈ n.pins) (pinned : Bool) :
    (n.settle cid pinned).slots = n.slots.release cid := by
  have herase : (↑(n.resumable ++ n.pins) : Multiset C).erase cid =
      ↑(n.resumable ++ n.pins.erase cid) := by
    rw [← Multiset.coe_add, ← Multiset.coe_add,
      Multiset.erase_add_right_pos _ (Multiset.mem_coe.2 hcid),
      Multiset.coe_erase]
  rw [settle, if_pos hcid, slots_releasePinSlot, Semaphore.release]
  unfold slots
  rw [herase]

theorem slots_resume (cid : C) :
    (n.resume cid).slots.holding = n.slots.holding ∧
      (n.resume cid).slots.waiting = n.slots.waiting := by
  unfold resume
  split
  case isTrue hcid =>
    refine ⟨?_, rfl⟩
    unfold slots
    dsimp only
    rw [Multiset.coe_eq_coe, ← List.append_assoc]
    refine (List.perm_append_singleton cid _).trans ?_
    rw [← List.cons_append]
    exact (List.perm_cons_erase hcid).symm.append_right n.pins
  case isFalse => exact ⟨rfl, rfl⟩

section Fields

omit [DecidableEq C]

@[simp] theorem seenCids_acquirePinSlot (cid : C) :
    (n.acquirePinSlot cid).seenCids = n.seenCids := by
  unfold acquirePinSlot
  split <;> rfl

@[simp] theorem pinningCids_acquirePinSlot (cid : C) :
    (n.acquirePinSlot cid).pinningCids = n.pinningCids := by
  unfold acquirePinSlot
  split <;> rfl

@[simp] theorem pins_acquirePinSlot (cid : C) :
    (n.acquirePinSlot cid).pins = n.pins := by
  unfold acquirePinSlot
  split <;> rfl

@[simp] theorem seenCids_releasePinSlot :
    n.releasePinSlot.seenCids = n.seenCids := by
  unfold releasePinSlot
  split <;> rfl

@[simp] theorem pinningCids_releasePinSlot :
    n.releasePinSlot.pinningCids = n.pinningCids := by
  unfold releasePinSlot
  split <;> rfl

@[simp] theorem pins_releasePinSlot : n.releasePinSlot.pins = n.pins := by
  unfold releasePinSlot
  split <;> rfl

theorem activePins_acquirePinSlot (h : n.activePins = n.slots.holding.card)
    (cid : C) :
    (n.acquirePinSlot cid).activePins =
      (n.acquirePinSlot cid).slots.holding.card := by
  unfold acquirePinSlot
  split
  case isTrue =>
    rw [show n.activePins = (n.resumable ++ n.pins).length from h]
    unfold slots
    simp
    omega
  case isFalse => exact h

theorem activePins_releasePinSlot
    (h : n.activePins = n.slots.holding.card + 1) :
    n.releasePinSlot.activePins = n.releasePinSlot.slots.holding.card := by
  rw [slots_releasePinSlot]
  unfold releasePinSlot Semaphore.pass
  rw [show n.slots.waiting = n.pinQueue from rfl]
  cases n.pinQueue with
  | nil => exact Nat.sub_eq_of_eq_add h
  | cons next rest =>
      rw [Multiset.card_cons]
      exact h

end Fields

/-! ## The invariant -/

theorem Inv.pinCID (h : n.Inv) (cid : C) : (n.pinCID parses cid).Inv := by
  unfold CollabswarmNode.pinCID
  split
  case isTrue => exact h
  case isFalse hnew =>
    obtain ⟨hseen, hpinning⟩ := not_or.1 hnew
    split
    case isFalse => exact h
    case isTrue =>
      have hactive : ({ n with pinningCids := n.pinningCids.add cid }
          : CollabswarmNode C).activePins =
            (slots { n with
              pinningCids := n.pinningCids.add cid }).holding.card :=
        h.active
      have hslots := slots_acquirePinSlot hactive cid
      constructor
      case fits =>
        rw [hslots]
        exact h.fits.acquire cid
      case active => exact activePins_acquirePinSlot hactive cid
      case tasks =>
        rw [hslots, Semaphore.tasks_acquire, pinningCids_acquirePinSlot,
          InsertionSet.toList_add_of_not_mem hpinning,
          show (slots { n with pinningCids := n.pinningCids.add cid }).tasks =
            ↑n.pinningCids.toList from h.tasks, Multiset.cons_coe,
          Multiset.coe_eq_coe]
        exact (List.perm_append_singleton cid _).symm
      case fresh =>
        intro c hc
        rw [pinningCids_acquirePinSlot, InsertionSet.mem_add] at hc
        rw [seenCids_acquirePinSlot]
        rcases hc with hc | rfl
        · exact h.fresh c hc
        · exact hseen

theorem Inv.resume (h : n.Inv) (cid : C) : (n.resume cid).Inv := by
  have hslots := slots_resume (n := n) cid
  have hfields : (n.resume cid).activePins = n.activePins ∧
      (n.resume cid).pinningCids = n.pinningCids ∧
      (n.resume cid).seenCids = n.seenCids := by
    unfold CollabswarmNode.resume
    split
    case isTrue => exact ⟨rfl, rfl, rfl⟩
    case isFalse => exact ⟨rfl, rfl, rfl⟩
  obtain ⟨hactive, hpinning, hseen⟩ := hfields
  constructor
  case fits =>
    constructor
    · rw [hslots.1]
      exact h.fits.bounded
    · rw [hslots.1, hslots.2]
      exact h.fits.full
  case active =>
    rw [hactive, hslots.1]
    exact h.active
  case tasks =>
    rw [Semaphore.tasks, hslots.1, hslots.2, hpinning]
    exact h.tasks
  case fresh =>
    rw [hpinning, hseen]
    exact h.fresh

theorem Inv.settle (h : n.Inv) (cid : C) (pinned : Bool) :
    (n.settle cid pinned).Inv := by
  by_cases hcid : cid ∈ n.pins
  swap
  · rw [CollabswarmNode.settle, if_neg hcid]
    exact h
  have hslots := slots_settle hcid pinned
  have hholding : cid ∈ n.slots.holding :=
    Multiset.mem_coe.2 (List.mem_append_right _ hcid)
  have hpinning : (n.settle cid pinned).pinningCids =
      n.pinningCids.delete cid := by
    rw [CollabswarmNode.settle, if_pos hcid, pinningCids_releasePinSlot]
  constructor
  case fits =>
    rw [hslots]
    exact h.fits.release hholding
  case active =>
    rw [CollabswarmNode.settle, if_pos hcid]
    apply activePins_releasePinSlot
    have hlength := List.length_erase_add_one hcid
    have hactive : n.activePins = (n.resumable ++ n.pins).length := h.active
    rw [List.length_append] at hactive
    change n.activePins = (n.resumable ++ n.pins.erase cid).length + 1
    rw [List.length_append]
    omega
  case tasks =>
    have hcons := Semaphore.cons_tasks_release hholding
    rw [h.tasks, ← hslots] at hcons
    rw [hpinning]
    change _ = (↑(n.pinningCids.toList.erase cid) : Multiset C)
    rw [← Multiset.coe_erase, ← hcons, Multiset.erase_cons_head]
  case fresh =>
    intro c hc
    rw [hpinning, InsertionSet.mem_delete] at hc
    rw [CollabswarmNode.settle, if_pos hcid, seenCids_releasePinSlot]
    have hfresh := h.fresh c hc.2
    cases pinned with
    | false => exact hfresh
    | true =>
        intro hmem
        rcases InsertionSet.mem_add.1 hmem with hmem | hmem
        · exact hfresh hmem
        · exact hc.1 hmem

theorem Inv.pinStep (h : n.Inv) (e : PinEvent C) :
    (pinStep parses n e).Inv := by
  cases e with
  | pin cid => exact h.pinCID cid
  | resume cid => exact h.resume cid
  | settle cid pinned => exact h.settle cid pinned

/-! ## Calls, slots and pins of a run -/

/-- The CID for which a call of `_pinCID` goes past its checks. -/
def admitted (parses : C → Bool) (n : CollabswarmNode C) :
    PinEvent C → List C
  | .pin cid =>
      if cid ∈ n.seenCids.toList ∨ cid ∈ n.pinningCids.toList then []
      else if parses cid then [cid] else []
  | .resume _ => []
  | .settle _ _ => []

/-- The call of `_pinCID` that gets a slot. -/
def granted (parses : C → Bool) (n : CollabswarmNode C) : PinEvent C → List C
  | .pin cid =>
      if n.activePins < maxConcurrentPins then n.admitted parses (.pin cid)
      else []
  | .resume _ => []
  | .settle cid _ => if cid ∈ n.pins then n.pinQueue.head?.toList else []

/-- The CID for which `pins.add` is called. -/
def started (n : CollabswarmNode C) : PinEvent C → List C
  | .pin _ => []
  | .resume cid => if cid ∈ n.resumable then [cid] else []
  | .settle _ _ => []

/-- The CID whose pin fails. -/
def failed (n : CollabswarmNode C) : PinEvent C → List C
  | .pin _ => []
  | .resume _ => []
  | .settle cid pinned => if cid ∈ n.pins ∧ pinned = false then [cid] else []

/-- A call that goes on, or a pin that settles: what happens of itself. -/
def Pending (n : CollabswarmNode C) : PinEvent C → Prop
  | .pin _ => False
  | .resume cid => cid ∈ n.resumable
  | .settle cid _ => cid ∈ n.pins

/-- The number of pending events that are left. -/
def pendingEvents (n : CollabswarmNode C) : ℕ :=
  2 * (n.pinQueue.length + n.resumable.length) + n.pins.length

omit [DecidableEq C] in
theorem pinQueue_acquirePinSlot (h : n.slots.Fits maxConcurrentPins)
    (hactive : n.activePins = n.slots.holding.card) (cid : C) :
    n.pinQueue ++ [cid] =
      (if n.activePins < maxConcurrentPins then [cid] else []) ++
        (n.acquirePinSlot cid).pinQueue := by
  have hqueue := h.waiting_acquire cid
  rw [← slots_acquirePinSlot hactive, Semaphore.grantedByAcquire,
    ← hactive] at hqueue
  exact hqueue

/-- A call that is admitted waits behind all others. -/
theorem Inv.pinQueue_append_admitted (h : n.Inv) (e : PinEvent C) :
    n.pinQueue ++ n.admitted parses e =
      n.granted parses e ++ (Node.pinStep parses n e).pinQueue := by
  cases e with
  | pin cid =>
      simp only [granted, admitted, Node.pinStep, CollabswarmNode.pinCID]
      split
      case isTrue => simp
      case isFalse =>
        split
        case isTrue =>
          exact pinQueue_acquirePinSlot
            (n := { n with pinningCids := n.pinningCids.add cid })
            h.fits h.active cid
        case isFalse => simp
  | resume cid =>
      have hwaiting : (n.resume cid).pinQueue = n.pinQueue :=
        (slots_resume cid).2
      simp only [granted, admitted, Node.pinStep]
      rw [hwaiting, List.append_nil, List.nil_append]
  | settle cid pinned =>
      simp only [granted, admitted, Node.pinStep]
      rw [List.append_nil]
      split
      case isTrue hcid =>
        have hwaiting := Semaphore.waiting_release (s := n.slots) cid
        rw [← slots_settle hcid pinned] at hwaiting
        exact hwaiting
      case isFalse hcid =>
        rw [CollabswarmNode.settle, if_neg hcid, List.nil_append]

/-- `pins.add` is called once for every pin that is done or under way. -/
theorem Inv.pins_append_started (h : n.Inv) (e : PinEvent C) :
    (n.seenCids.toList ++ n.pins ++ n.started e).Perm
      (n.failed e ++ ((Node.pinStep parses n e).seenCids.toList ++
        (Node.pinStep parses n e).pins)) := by
  cases e with
  | pin cid =>
      have hsame : (n.pinCID parses cid).seenCids = n.seenCids ∧
          (n.pinCID parses cid).pins = n.pins := by
        unfold CollabswarmNode.pinCID
        split
        case isTrue => exact ⟨rfl, rfl⟩
        case isFalse => split <;> simp
      simp only [started, failed, Node.pinStep]
      rw [hsame.1, hsame.2, List.append_nil, List.nil_append]
  | resume cid =>
      simp only [started, failed, Node.pinStep, CollabswarmNode.resume]
      rw [List.nil_append]
      split
      case isTrue => rw [List.append_assoc]
      case isFalse => rw [List.append_nil]
  | settle cid pinned =>
      simp only [started, failed, Node.pinStep]
      rw [List.append_nil]
      by_cases hcid : cid ∈ n.pins
      swap
      · rw [if_neg fun hfail => hcid hfail.1, CollabswarmNode.settle,
          if_neg hcid, List.nil_append]
      have herase : n.pins.Perm (cid :: n.pins.erase cid) :=
        List.perm_cons_erase hcid
      have hnew : cid ∉ n.seenCids.toList := by
        refine h.fresh cid (Multiset.mem_coe.1 ?_)
        rw [← h.tasks]
        exact Multiset.mem_add.2 (Or.inl (Multiset.mem_coe.2
          (List.mem_append_right _ hcid)))
      rw [CollabswarmNode.settle, if_pos hcid, seenCids_releasePinSlot,
        pins_releasePinSlot]
      cases pinned with
      | false =>
          rw [if_pos ⟨hcid, rfl⟩]
          exact (herase.append_left n.seenCids.toList).trans
            List.perm_middle
      | true =>
          rw [if_neg (by simp), List.nil_append, if_pos rfl,
            InsertionSet.toList_add_of_not_mem hnew, List.append_assoc]
          exact herase.append_left n.seenCids.toList

/-- A CID that is pinned or being pinned stays so unless its pin fails. -/
theorem kept_or_failed (parses : C → Bool) {c : C}
    (h : c ∈ n.seenCids.toList ∨ c ∈ n.pinningCids.toList)
    (e : PinEvent C) :
    (c ∈ (Node.pinStep parses n e).seenCids.toList ∨
      c ∈ (Node.pinStep parses n e).pinningCids.toList) ∨ c ∈ n.failed e := by
  cases e with
  | pin cid =>
      left
      simp only [Node.pinStep, CollabswarmNode.pinCID]
      split
      case isTrue => exact h
      case isFalse =>
        split
        case isTrue =>
          rw [seenCids_acquirePinSlot, pinningCids_acquirePinSlot,
            InsertionSet.mem_add]
          exact h.imp_right Or.inl
        case isFalse => exact h
  | resume cid =>
      left
      simp only [Node.pinStep, CollabswarmNode.resume]
      split
      case isTrue => exact h
      case isFalse => exact h
  | settle cid pinned =>
      simp only [Node.pinStep, CollabswarmNode.settle, failed]
      split
      case isFalse => exact Or.inl h
      case isTrue hcid =>
        rw [seenCids_releasePinSlot, pinningCids_releasePinSlot,
          InsertionSet.mem_delete]
        by_cases hc : c = cid
        · subst hc
          cases pinned with
          | false => simp [hcid]
          | true => simp
        · cases pinned with
          | false => exact Or.inl (h.imp_right fun hmem => ⟨hc, hmem⟩)
          | true =>
              rw [if_pos rfl, InsertionSet.mem_add]
              exact Or.inl (h.imp Or.inl fun hmem => ⟨hc, hmem⟩)

/-- A call for a well-formed CID leaves it pinned or being pinned. -/
theorem kept_pinCID {c : C} (hparses : parses c) :
    c ∈ (n.pinCID parses c).seenCids.toList ∨
      c ∈ (n.pinCID parses c).pinningCids.toList := by
  unfold CollabswarmNode.pinCID
  split
  case isTrue h => exact h
  case isFalse =>
    rw [pinningCids_acquirePinSlot, InsertionSet.mem_add]
    exact Or.inr (Or.inr rfl)

theorem kept_or_failed_run {c : C} (events : List (PinEvent C)) :
    ∀ n : CollabswarmNode C,
      (c ∈ n.seenCids.toList ∨ c ∈ n.pinningCids.toList) →
      (c ∈ (exec (Node.pinStep parses) n events).seenCids.toList ∨
        c ∈ (exec (Node.pinStep parses) n events).pinningCids.toList) ∨
      c ∈ outputs (Node.pinStep parses) failed n events := by
  induction events with
  | nil =>
      intro n h
      exact Or.inl h
  | cons e events ih =>
      intro n h
      rw [exec_cons, outputs_cons, List.mem_append]
      rcases kept_or_failed parses h e with hkept | hfailed
      · exact (ih _ hkept).imp_right Or.inr
      · exact Or.inr (Or.inl hfailed)

/-- A well-formed CID that was handed to `_pinCID` is pinned or being pinned,
or a pin of it has failed. -/
theorem kept_or_failed_of_mem {c : C} (hparses : parses c)
    (events : List (PinEvent C)) :
    ∀ n : CollabswarmNode C, .pin c ∈ events →
      (c ∈ (exec (Node.pinStep parses) n events).seenCids.toList ∨
        c ∈ (exec (Node.pinStep parses) n events).pinningCids.toList) ∨
      c ∈ outputs (Node.pinStep parses) failed n events := by
  induction events with
  | nil =>
      intro n h
      cases h
  | cons e events ih =>
      intro n h
      rw [exec_cons, outputs_cons, List.mem_append]
      rcases List.mem_cons.1 h with rfl | h
      · exact (kept_or_failed_run events _ (kept_pinCID hparses)).imp_right
          Or.inr
      · exact (ih _ h).imp_right Or.inr

/-- A pending event leaves one pending event less. -/
theorem pendingEvents_pinStep (parses : C → Bool) {e : PinEvent C} (he : n.Pending e) :
    (Node.pinStep parses n e).pendingEvents + 1 = n.pendingEvents := by
  cases e with
  | pin cid => exact absurd he not_false
  | resume cid =>
      have hcid : cid ∈ n.resumable := he
      have hlength := List.length_erase_add_one hcid
      simp only [Node.pinStep, CollabswarmNode.resume, pendingEvents]
      rw [if_pos hcid]
      simp only [List.length_append, List.length_singleton]
      omega
  | settle cid pinned =>
      have hcid : cid ∈ n.pins := he
      have hlength := List.length_erase_add_one hcid
      simp only [Node.pinStep, CollabswarmNode.settle, pendingEvents]
      rw [if_pos hcid]
      unfold releasePinSlot
      cases hqueue : n.pinQueue with
      | nil =>
          simp only [List.length_nil]
          omega
      | cons next rest =>
          simp only [List.length_append, List.length_cons, List.length_nil]
          omega

omit [DecidableEq C] in
/-- While anything is queued or under way, something can happen. -/
theorem Inv.exists_pending (h : n.Inv) (hpending : n.pendingEvents ≠ 0) :
    ∃ e, n.Pending e := by
  cases hresumable : n.resumable with
  | cons cid rest =>
      refine ⟨.resume cid, ?_⟩
      unfold Pending
      rw [hresumable]
      exact List.mem_cons_self
  | nil =>
      cases hpins : n.pins with
      | cons cid rest =>
          refine ⟨.settle cid true, ?_⟩
          unfold Pending
          rw [hpins]
          exact List.mem_cons_self
      | nil =>
          exfalso
          have hholding : n.slots.holding.card = 0 := by
            unfold slots
            simp [hresumable, hpins]
          have hqueue : n.pinQueue = [] := by
            apply h.fits.waiting_eq_nil
            rw [hholding]
            decide
          apply hpending
          simp [pendingEvents, hqueue, hresumable, hpins]

theorem pendingEvents_exec (more : List (PinEvent C)) :
    ∀ n : CollabswarmNode C, Guarded (Node.pinStep parses) Pending n more →
      (exec (Node.pinStep parses) n more).pendingEvents + more.length =
        n.pendingEvents := by
  induction more with
  | nil =>
      intro n _
      rfl
  | cons e more ih =>
      intro n h
      have hstep := pendingEvents_pinStep parses h.1
      have hrest := ih _ h.2
      rw [exec_cons, List.length_cons]
      omega

end CollabswarmNode

/-- The CID is in the tree of a published message or among the hashes of an
update. -/
def NodeEvent.Requests (c : C) : NodeEvent C L → Prop
  | .published changeId changes => ∃ m, Occurs [(changeId, changes)] c m
  | .updated hashes => c ∈ hashes
  | .resumed _ => False
  | .settled _ _ => False

omit [DecidableEq C] in
theorem NodeEvent.requests_iff {c : C} {e : NodeEvent C L} :
    e.Requests c ↔ .pin c ∈ e.pinEvents := by
  cases e with
  | published changeId changes =>
      simp [NodeEvent.Requests, NodeEvent.pinEvents, mem_pinNewCIDs]
  | updated hashes => simp [NodeEvent.Requests, NodeEvent.pinEvents]
  | resumed cid => simp [NodeEvent.Requests, NodeEvent.pinEvents]
  | settled cid pinned => simp [NodeEvent.Requests, NodeEvent.pinEvents]

/-- What the stretches of code of a run put out. -/
def during (out : CollabswarmNode C → PinEvent C → List C)
    (events : List (NodeEvent C L)) : List C :=
  outputs (pinStep parses) out new (events.flatMap NodeEvent.pinEvents)

theorem inv_exec (events : List (NodeEvent C L)) :
    (exec (step parses) new events).Inv := by
  rw [exec_step]
  exact exec_invariant_of_forall (fun n e h => h.pinStep e) _ inv_new

/-- At most ten pins run at once, all for different CIDs that are not pinned
yet, and a call waits only while ten hold a slot.  `pins.add` was called once
for every CID that is pinned or being pinned, and once for each failed pin. -/
theorem pins_limited (events : List (NodeEvent C L)) :
    let n := exec (step parses) new events
    n.pins.length ≤ maxConcurrentPins ∧
      (n.seenCids.toList ++ n.pins).Nodup ∧
      (n.pinQueue ≠ [] →
        (n.resumable ++ n.pins).length = maxConcurrentPins) ∧
      (during parses started events).Perm
        (during parses failed events ++ (n.seenCids.toList ++ n.pins)) := by
  intro n
  have hinv : n.Inv := inv_exec parses events
  have hheld : n.slots.holding.card = (n.resumable ++ n.pins).length := rfl
  have htasks : (n.resumable ++ n.pins ++ n.pinQueue).Perm
      n.pinningCids.toList := Multiset.coe_eq_coe.1 hinv.tasks
  have hpins : ∀ c ∈ n.pins, c ∈ n.pinningCids.toList := by
    intro c hc
    exact htasks.subset (by simp [hc])
  refine ⟨?_, ?_, ?_, ?_⟩
  · have hbounded := hinv.fits.bounded
    rw [hheld, List.length_append] at hbounded
    omega
  · have hnodup : (n.resumable ++ n.pins ++ n.pinQueue).Nodup :=
      htasks.nodup_iff.2 n.pinningCids.nodup
    have hnodup' : n.pins.Nodup :=
      (List.nodup_append.1 (List.nodup_append.1 hnodup).1).2.1
    refine List.nodup_append.2 ⟨n.seenCids.nodup, hnodup', ?_⟩
    rintro c hseen _ hmem rfl
    exact hinv.fresh c (hpins c hmem) hseen
  · exact hinv.fits.full
  · have hperm := outputs_perm (pinStep parses)
      (fun n => n.seenCids.toList ++ n.pins)
      (fun n e (h : n.Inv) => h.pinStep e)
      (fun n e h => h.pins_append_started e)
      (events.flatMap NodeEvent.pinEvents) new inv_new
    rw [← exec_step] at hperm
    exact hperm

/-- The slots go to the calls in the order in which these were made.  What is
queued or under way always ends after a fixed number of pending events, of
which there is one until then; at the end every well-formed CID of a published
tree or an update is pinned, unless a pin of it failed. -/
theorem requests_settle (events : List (NodeEvent C L)) :
    let n := exec (step parses) new events
    during parses (admitted parses) events =
        during parses (granted parses) events ++ n.pinQueue ∧
      (∀ more, Guarded (pinStep parses) Pending n more →
        (exec (pinStep parses) n more).pendingEvents + more.length =
          n.pendingEvents) ∧
      (n.pendingEvents ≠ 0 → ∃ e, n.Pending e) ∧
      (n.pendingEvents = 0 →
        n.activePins = 0 ∧ n.pinningCids.toList = [] ∧
          ∀ c, parses c → (∃ e ∈ events, e.Requests c) →
            c ∈ n.seenCids.toList ∨ c ∈ during parses failed events) := by
  intro n
  have hinv : n.Inv := inv_exec parses events
  refine ⟨?_, fun more => pendingEvents_exec more n, hinv.exists_pending, ?_⟩
  · have hqueue := outputs_queue (pinStep parses) pinQueue
      (fun n e (h : n.Inv) => h.pinStep e)
      (fun n e h => h.pinQueue_append_admitted e)
      (events.flatMap NodeEvent.pinEvents) new inv_new
    rw [← exec_step] at hqueue
    exact hqueue
  · intro hrest
    have hqueue : n.pinQueue = [] := by
      apply List.eq_nil_of_length_eq_zero
      unfold pendingEvents at hrest
      omega
    have hresumable : n.resumable = [] := by
      apply List.eq_nil_of_length_eq_zero
      unfold pendingEvents at hrest
      omega
    have hpins : n.pins = [] := by
      apply List.eq_nil_of_length_eq_zero
      unfold pendingEvents at hrest
      omega
    have hpinning : n.pinningCids.toList = [] := by
      have htasks := hinv.tasks
      unfold slots Semaphore.tasks at htasks
      rw [hqueue, hresumable, hpins] at htasks
      exact Multiset.coe_eq_zero _ |>.1 htasks.symm
    refine ⟨?_, hpinning, ?_⟩
    · rw [hinv.active]
      unfold slots
      rw [hresumable, hpins]
      rfl
    · rintro c hparses ⟨e, he, hrequests⟩
      have hmem : .pin c ∈ events.flatMap NodeEvent.pinEvents :=
        List.mem_flatMap.2 ⟨e, he, NodeEvent.requests_iff.1 hrequests⟩
      have hkept := kept_or_failed_of_mem hparses _ new hmem
      rw [← exec_step] at hkept
      rcases hkept with (hseen | hpin) | hfailed
      · exact Or.inl hseen
      · rw [hpinning] at hpin
        cases hpin
      · exact Or.inr hfailed

end Collabswarm.Node
