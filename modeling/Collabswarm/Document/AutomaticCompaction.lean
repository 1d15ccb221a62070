import Collabswarm.Document.SyncOrder
import Collabswarm.Support.Lists

/-!
# Compaction under concurrent calls

`_maybeCompact`, `snapshot` and the snapshot step of `sync`, as they are
interrupted at their awaits.  `_maybeCompact` tests `_compactionInProgress`,
awaits the check of the writers and sets the flag without a second test, so
two calls may both pass the test before either of them sets the flag.

Pruning, which changes neither counts nor roots, is left out.
-/

namespace Collabswarm.Document

/-- What compaction depends on: the thresholds, whether the provider has
`getSnapshot`, and whether snapshots are signed. -/
structure CompactionSettings where
  enabled : Bool
  minChangesBeforeSnapshot : ℕ
  snapshotInterval : ℕ
  canSnapshot : Bool
  signingEnabled : Bool

/-- Where a call awaits: `_maybeCompact` the check of the writers, `snapshot`
the same check or the signature of what it captured, `_maybeCompact` the end of
its `snapshot`, or `sync` the verification of a snapshot that won its
comparison.  `automatic` tells that `_maybeCompact` called `snapshot`, and
`writesSeen` counts the snapshots that were latest up to then. -/
inductive CompactionCall (C : Type) where
  | checkingWriter
  | ensuringWriter (automatic : Bool)
  | signing (automatic : Bool) (snapshot : Snapshot C) (writesSeen : ℕ)
  | compacted
  | verifying (incoming : Snapshot C) (writesSeen : ℕ)
  | returned

/-- The part of a document that compaction reads and writes, with all calls.
`writes` lists the snapshots that were assigned to `_latestSnapshot`. -/
structure CompactingDocument (C : Type) where
  document : Finset C
  changeId : WithBot C
  documentChangeCount : ℕ
  changesSinceSnapshot : ℕ
  snapshotUnsupported : Bool
  compactionInProgress : Bool
  latestSnapshot : Option (Snapshot C)
  calls : List (CompactionCall C)
  writes : List (Snapshot C)

/-- What happens to a document: `_maybeCompact` or `snapshot` is called, `sync`
comes to a snapshot, a document change is applied, another root is served, a
call goes on, or what it awaits fails or is refused. -/
inductive CompactionEvent (C : Type) where
  | maybeCompact
  | snapshot
  | receive (incoming : Snapshot C)
  | change (cid : C)
  | serve (changeId : WithBot C)
  | resume (call : ℕ)
  | fail (call : ℕ)

namespace CompactingDocument

variable {C : Type}

/-- A new document. -/
def fresh : CompactingDocument C :=
  ⟨∅, ⊥, 0, 0, false, false, none, [], []⟩

/-- `_maybeCompact` up to its await. -/
def maybeCompact (settings : CompactionSettings) (s : CompactingDocument C) :
    CompactingDocument C :=
  if !settings.enabled || s.snapshotUnsupported then s
  else if s.compactionInProgress then s
  else if s.documentChangeCount < settings.minChangesBeforeSnapshot then s
  else if s.changesSinceSnapshot < settings.snapshotInterval then s
  else { s with calls := s.calls ++ [.checkingWriter] }

/-- What is left of a call when its `snapshot` has ended. -/
def ended (automatic : Bool) : CompactionCall C :=
  if automatic then .compacted else .returned

/-- Assign the snapshot of call `i`. -/
def assignSnapshot (s : CompactingDocument C) (i : ℕ) (automatic : Bool)
    (snapshot : Snapshot C) : CompactingDocument C :=
  { s with
    latestSnapshot := some snapshot
    changesSinceSnapshot := 0
    calls := s.calls.set i (ended automatic)
    writes := s.writes ++ [snapshot] }

/-- The snapshot of the document as it is. -/
def captured (s : CompactingDocument C) : Snapshot C :=
  ⟨s.document, s.changeId, s.documentChangeCount⟩

/-- `snapshot` after the check of the writers. -/
def captureSnapshot (settings : CompactionSettings) (s : CompactingDocument C)
    (i : ℕ) (automatic : Bool) : CompactingDocument C :=
  if !settings.canSnapshot then
    { s with
      snapshotUnsupported := true
      calls := s.calls.set i (ended automatic) }
  else if settings.signingEnabled then
    { s with
      calls := s.calls.set i (.signing automatic s.captured s.writes.length) }
  else s.assignSnapshot i automatic s.captured

/-- `sync` applies the snapshot of call `i`. -/
def adoptSnapshot [DecidableEq C] (s : CompactingDocument C) (i : ℕ)
    (incoming : Snapshot C) : CompactingDocument C :=
  { s with
    document := s.document ∪ incoming.state
    latestSnapshot := some incoming
    documentChangeCount := max s.documentChangeCount incoming.compactedCount
    changesSinceSnapshot := 0
    calls := s.calls.set i .returned
    writes := s.writes ++ [incoming] }

section Step

variable [LinearOrder C]

/-- `sync` comes to a snapshot. -/
def receiveSnapshot (settings : CompactionSettings) (s : CompactingDocument C)
    (incoming : Snapshot C) : CompactingDocument C :=
  if SyncState.newer incoming s.latestSnapshot then
    let awaiting := { s with
      calls := s.calls ++ [.verifying incoming s.writes.length] }
    if settings.signingEnabled then awaiting
    else awaiting.adoptSnapshot s.calls.length incoming
  else s

/-- One event. -/
def step (settings : CompactionSettings) (s : CompactingDocument C) :
    CompactionEvent C → CompactingDocument C
  | .maybeCompact => s.maybeCompact settings
  | .snapshot => { s with calls := s.calls ++ [.ensuringWriter false] }
  | .receive incoming => s.receiveSnapshot settings incoming
  | .change cid =>
      { s with
        document := insert cid s.document
        documentChangeCount := s.documentChangeCount + 1
        changesSinceSnapshot := s.changesSinceSnapshot + 1 }
  | .serve changeId => { s with changeId := changeId }
  | .resume i =>
      match s.calls[i]? with
      | some .checkingWriter =>
          { s with
            compactionInProgress := true
            calls := s.calls.set i (.ensuringWriter true) }
      | some (.ensuringWriter automatic) =>
          s.captureSnapshot settings i automatic
      | some (.signing automatic snapshot _) =>
          s.assignSnapshot i automatic snapshot
      | some .compacted =>
          { s with
            compactionInProgress := false
            calls := s.calls.set i .returned }
      | some (.verifying incoming _) => s.adoptSnapshot i incoming
      | some .returned => s
      | none => s
  | .fail i =>
      match s.calls[i]? with
      | some .checkingWriter => { s with calls := s.calls.set i .returned }
      | some (.ensuringWriter automatic) =>
          { s with calls := s.calls.set i (ended automatic) }
      | some (.signing automatic _ _) =>
          { s with calls := s.calls.set i (ended automatic) }
      | some .compacted => s
      | some (.verifying _ _) => { s with calls := s.calls.set i .returned }
      | some .returned => s
      | none => s

end Step

end CompactingDocument

/-! ## Automatic snapshots -/

/-- The call runs a `snapshot` that `_maybeCompact` started. -/
def CompactionCall.isAutomatic {C : Type} : CompactionCall C → Bool
  | .ensuringWriter automatic => automatic
  | .signing automatic _ _ => automatic
  | _ => false

/-- The call has set `_compactionInProgress` and has not cleared it. -/
def CompactionCall.holdsFlag {C : Type} : CompactionCall C → Bool
  | .compacted => true
  | call => call.isAutomatic

namespace CompactingDocument

section Automatic

variable {C : Type}

/-- How many snapshots that `_maybeCompact` started are in progress. -/
def automaticSnapshots (s : CompactingDocument C) : ℕ :=
  s.calls.countP CompactionCall.isAutomatic

/-- How many calls have set `_compactionInProgress` and not cleared it. -/
def flagHolders (s : CompactingDocument C) : ℕ :=
  s.calls.countP CompactionCall.holdsFlag

/-- The check of the writers in `_maybeCompact` is about to succeed in call
`i`. -/
def Starts (s : CompactingDocument C) (i : ℕ) : Prop :=
  s.calls[i]? = some .checkingWriter

/-- What a step does to automatic snapshots that starts none and lets none
end. -/
structure Steady (s s' : CompactingDocument C) : Prop where
  flag : s'.compactionInProgress = s.compactionInProgress
  snapshots : s'.automaticSnapshots ≤ s.automaticSnapshots
  holders : s'.flagHolders = s.flagHolders

theorem holdsFlag_ended (automatic : Bool) :
    (ended automatic : CompactionCall C).holdsFlag = automatic := by
  cases automatic <;> rfl

theorem isAutomatic_ended (automatic : Bool) :
    (ended automatic : CompactionCall C).isAutomatic = false := by
  cases automatic <;> rfl

/-- A call that holds no flag comes. -/
theorem steady_append {s s' : CompactingDocument C} {call : CompactionCall C}
    (hflag : s'.compactionInProgress = s.compactionInProgress)
    (hcalls : s'.calls = s.calls ++ [call]) (hautomatic : call.isAutomatic = false)
    (hholds : call.holdsFlag = false) : Steady s s' := by
  refine ⟨hflag, ?_, ?_⟩
  · rw [automaticSnapshots, automaticSnapshots, hcalls, List.countP_append,
      List.countP_singleton, hautomatic]
    exact le_rfl
  · rw [flagHolders, flagHolders, hcalls, List.countP_append,
      List.countP_singleton, hholds]
    rfl

/-- A call goes on and keeps the flag, if it has it. -/
theorem steady_set {s s' : CompactingDocument C} {i : ℕ}
    {call call' : CompactionCall C}
    (hflag : s'.compactionInProgress = s.compactionInProgress)
    (hcalls : s'.calls = s.calls.set i call') (hcall : s.calls[i]? = some call)
    (hautomatic : call'.isAutomatic = true → call.isAutomatic = true)
    (hholds : call'.holdsFlag = call.holdsFlag) : Steady s s' := by
  have hsnapshots := @countP_set_add _ _ call' _ _
    CompactionCall.isAutomatic hcall
  have hholders := @countP_set_add _ _ call' _ _
    CompactionCall.holdsFlag hcall
  rw [hholds] at hholders
  refine ⟨hflag, ?_, ?_⟩
  · rw [automaticSnapshots, automaticSnapshots, hcalls]
    by_cases hnew : call'.isAutomatic = true
    · rw [if_pos hnew, if_pos (hautomatic hnew)] at hsnapshots
      omega
    · rw [if_neg hnew] at hsnapshots
      omega
  · rw [flagHolders, flagHolders, hcalls]
    omega

/-- A call whose `snapshot` ends keeps the flag. -/
theorem steady_ended {s s' : CompactingDocument C} {i : ℕ} {automatic : Bool}
    {call : CompactionCall C}
    (hflag : s'.compactionInProgress = s.compactionInProgress)
    (hcalls : s'.calls = s.calls.set i (ended automatic))
    (hcall : s.calls[i]? = some call) (hholds : call.holdsFlag = automatic) :
    Steady s s' := by
  refine steady_set hflag hcalls hcall ?_ ?_
  · rw [isAutomatic_ended]
    exact fun h => nomatch h
  · rw [holdsFlag_ended, hholds]

theorem steady_captureSnapshot (settings : CompactionSettings)
    {s : CompactingDocument C} {i : ℕ} {automatic : Bool}
    (hcall : s.calls[i]? = some (.ensuringWriter automatic)) :
    Steady s (s.captureSnapshot settings i automatic) := by
  rw [captureSnapshot]
  split
  · exact steady_ended rfl rfl hcall rfl
  split
  · exact steady_set rfl rfl hcall id rfl
  · exact steady_ended rfl rfl hcall rfl

theorem steady_maybeCompact (settings : CompactionSettings)
    (s : CompactingDocument C) : Steady s (s.maybeCompact settings) := by
  have hsame : Steady s s := ⟨rfl, le_rfl, rfl⟩
  rw [maybeCompact]
  split
  · exact hsame
  split
  · exact hsame
  split
  · exact hsame
  split
  · exact hsame
  · exact steady_append rfl rfl rfl rfl

section Order

variable [LinearOrder C]

theorem steady_receiveSnapshot (settings : CompactionSettings)
    (s : CompactingDocument C) (incoming : Snapshot C) :
    Steady s (s.receiveSnapshot settings incoming) := by
  rw [receiveSnapshot]
  split
  · dsimp only
    split
    · exact steady_append rfl rfl rfl rfl
    · have hcalls : (s.calls ++
          [CompactionCall.verifying incoming s.writes.length]).set
            s.calls.length .returned = s.calls ++ [.returned] := by
        simp
      exact steady_append rfl hcalls rfl rfl
  · exact ⟨rfl, le_rfl, rfl⟩

theorem steady_fail (settings : CompactionSettings) (s : CompactingDocument C)
    (i : ℕ) : Steady s (s.step settings (.fail i)) := by
  have hsame : Steady s s := ⟨rfl, le_rfl, rfl⟩
  rw [step]
  split
  · rename_i hcall
    exact steady_set rfl rfl hcall id rfl
  · rename_i hcall
    exact steady_ended rfl rfl hcall rfl
  · rename_i hcall
    exact steady_ended rfl rfl hcall rfl
  · exact hsame
  · rename_i hcall
    exact steady_set rfl rfl hcall id rfl
  · exact hsame
  · exact hsame

/-- A call that goes on starts an automatic snapshot, or clears the flag
behind one, or is steady. -/
theorem resume_cases (settings : CompactionSettings) (s : CompactingDocument C)
    (i : ℕ) :
    (s.Starts i ∧ s.step settings (.resume i) =
      { s with
        compactionInProgress := true
        calls := s.calls.set i (.ensuringWriter true) }) ∨
    (s.calls[i]? = some .compacted ∧ s.step settings (.resume i) =
      { s with
        compactionInProgress := false
        calls := s.calls.set i .returned }) ∨
    ¬ s.Starts i ∧ Steady s (s.step settings (.resume i)) := by
  have hsame : Steady s s := ⟨rfl, le_rfl, rfl⟩
  rcases hcall : s.calls[i]? with _ | call
  · refine Or.inr (Or.inr ⟨fun h => (nomatch hcall.symm.trans h), ?_⟩)
    rw [step, hcall]
    exact hsame
  cases call with
  | checkingWriter =>
      refine Or.inl ⟨hcall, ?_⟩
      rw [step, hcall]
  | compacted =>
      refine Or.inr (Or.inl ⟨rfl, ?_⟩)
      rw [step, hcall]
  | ensuringWriter automatic =>
      refine Or.inr (Or.inr ⟨fun h => (nomatch hcall.symm.trans h), ?_⟩)
      rw [step, hcall]
      exact steady_captureSnapshot settings hcall
  | signing automatic snapshot writesSeen =>
      refine Or.inr (Or.inr ⟨fun h => (nomatch hcall.symm.trans h), ?_⟩)
      rw [step, hcall]
      exact steady_ended rfl rfl hcall rfl
  | verifying incoming writesSeen =>
      refine Or.inr (Or.inr ⟨fun h => (nomatch hcall.symm.trans h), ?_⟩)
      rw [step, hcall]
      exact steady_set rfl rfl hcall id rfl
  | returned =>
      refine Or.inr (Or.inr ⟨fun h => (nomatch hcall.symm.trans h), ?_⟩)
      rw [step, hcall]
      exact hsame

/-- Only the check of the writers in `_maybeCompact` starts an automatic
snapshot, and only the end of one clears the flag. -/
theorem step_cases (settings : CompactionSettings) (s : CompactingDocument C)
    (e : CompactionEvent C) :
    (∃ i, e = .resume i ∧ s.Starts i ∧ s.step settings e =
      { s with
        compactionInProgress := true
        calls := s.calls.set i (.ensuringWriter true) }) ∨
    (∃ i, e = .resume i ∧ ¬ s.Starts i ∧ s.calls[i]? = some .compacted ∧
      s.step settings e =
      { s with
        compactionInProgress := false
        calls := s.calls.set i .returned }) ∨
    (∀ i, e = .resume i → ¬ s.Starts i) ∧ Steady s (s.step settings e) := by
  cases e with
  | resume i =>
      rcases s.resume_cases settings i with
        ⟨hstarts, hstep⟩ | ⟨hcall, hstep⟩ | ⟨hstarts, hsteady⟩
      · exact Or.inl ⟨i, rfl, hstarts, hstep⟩
      · exact Or.inr (Or.inl
          ⟨i, rfl, fun h => (nomatch hcall.symm.trans h), hcall, hstep⟩)
      · refine Or.inr (Or.inr ⟨?_, hsteady⟩)
        rintro _ ⟨rfl⟩
        exact hstarts
  | maybeCompact =>
      exact Or.inr (Or.inr ⟨fun _ h => (nomatch h),
        s.steady_maybeCompact settings⟩)
  | snapshot =>
      exact Or.inr (Or.inr ⟨fun _ h => (nomatch h),
        steady_append rfl rfl rfl rfl⟩)
  | receive incoming =>
      exact Or.inr (Or.inr ⟨fun _ h => (nomatch h),
        s.steady_receiveSnapshot settings incoming⟩)
  | change cid =>
      exact Or.inr (Or.inr ⟨fun _ h => (nomatch h), rfl, le_rfl, rfl⟩)
  | serve changeId =>
      exact Or.inr (Or.inr ⟨fun _ h => (nomatch h), rfl, le_rfl, rfl⟩)
  | fail i =>
      exact Or.inr (Or.inr ⟨fun _ h => (nomatch h),
        s.steady_fail settings i⟩)

/-! ## Overlapping snapshots -/

/-- At most one snapshot that `_maybeCompact` started is in progress. -/
def AtMostOneAutomatic (s : CompactingDocument C) : Prop :=
  s.automaticSnapshots ≤ 1

/-- A check of the writers succeeds in `_maybeCompact` only while no snapshot
that another call started is in progress. -/
def StartsAlone (s : CompactingDocument C) (e : CompactionEvent C) : Prop :=
  ∀ i, e = .resume i → s.Starts i → s.automaticSnapshots = 0

/-- A check of the writers succeeds in `_maybeCompact` only while
`_compactionInProgress` is not set. -/
def StartsWithoutFlag (s : CompactingDocument C) (e : CompactionEvent C) :
    Prop :=
  ∀ i, e = .resume i → s.Starts i → s.compactionInProgress = false

omit [LinearOrder C] in
theorem automaticSnapshots_start {s : CompactingDocument C} {i : ℕ}
    (h : s.Starts i) (flag : Bool) :
    automaticSnapshots { s with
      compactionInProgress := flag
      calls := s.calls.set i (.ensuringWriter true) } =
      s.automaticSnapshots + 1 := by
  have hcount : (s.calls.set i (.ensuringWriter true)).countP
      CompactionCall.isAutomatic + 0 = s.automaticSnapshots + 1 := countP_set_add h
  exact hcount

omit [LinearOrder C] in
theorem flagHolders_start {s : CompactingDocument C} {i : ℕ}
    (h : s.Starts i) (flag : Bool) :
    flagHolders { s with
      compactionInProgress := flag
      calls := s.calls.set i (.ensuringWriter true) } =
      s.flagHolders + 1 := by
  have hcount : (s.calls.set i (.ensuringWriter true)).countP
      CompactionCall.holdsFlag + 0 = s.flagHolders + 1 := countP_set_add h
  exact hcount

/-- One step keeps automatic snapshots apart exactly if it does not start one
next to another. -/
theorem atMostOneAutomatic_step (settings : CompactionSettings)
    (s : CompactingDocument C) (e : CompactionEvent C)
    (h : s.AtMostOneAutomatic) :
    (s.step settings e).AtMostOneAutomatic ↔ s.StartsAlone e := by
  rw [AtMostOneAutomatic] at h ⊢
  rcases s.step_cases settings e with
    ⟨i, rfl, hstarts, hstep⟩ | ⟨i, rfl, hnot, hcall, hstep⟩ | ⟨hnot, hsteady⟩
  · rw [hstep, automaticSnapshots_start hstarts]
    constructor
    · intro hle _ _ _
      omega
    · intro halone
      rw [halone i rfl hstarts]
  · have hcount : (s.calls.set i .returned).countP CompactionCall.isAutomatic + 0 =
        s.automaticSnapshots + 0 := countP_set_add hcall
    have hsame : (s.step settings (.resume i)).automaticSnapshots =
        s.automaticSnapshots := by
      rw [hstep]
      exact hcount
    rw [hsame]
    refine ⟨fun _ j hj hstarts => ?_, fun _ => h⟩
    cases hj
    exact absurd hstarts hnot
  · exact ⟨fun _ i hi hstarts => absurd hstarts (hnot i hi),
      fun _ => hsteady.snapshots.trans h⟩

/-- Exactly the calls behind the flag hold it. -/
def FlagKept (s : CompactingDocument C) : Prop :=
  s.flagHolders = if s.compactionInProgress then 1 else 0

omit [LinearOrder C] in
theorem automaticSnapshots_le_flagHolders (s : CompactingDocument C) :
    s.automaticSnapshots ≤ s.flagHolders := by
  refine List.countP_mono_left fun call _ h => ?_
  cases call with
  | compacted => rfl
  | _ => exact h

omit [LinearOrder C] in
theorem FlagKept.atMostOneAutomatic {s : CompactingDocument C}
    (h : s.FlagKept) : s.AtMostOneAutomatic := by
  refine s.automaticSnapshots_le_flagHolders.trans ?_
  rw [h]
  split <;> omega

/-- A step that starts no snapshot behind the flag keeps it with its calls. -/
theorem FlagKept.step (settings : CompactionSettings)
    (s : CompactingDocument C) (e : CompactionEvent C) (h : s.FlagKept)
    (hguard : s.StartsWithoutFlag e) : (s.step settings e).FlagKept := by
  rw [FlagKept] at h ⊢
  rcases s.step_cases settings e with
    ⟨i, rfl, hstarts, hstep⟩ | ⟨i, rfl, -, hcall, hstep⟩ | ⟨-, hsteady⟩
  · rw [hstep, flagHolders_start hstarts, h, hguard i rfl hstarts]
    rfl
  · have hcount : (s.calls.set i .returned).countP CompactionCall.holdsFlag + 1 =
        s.flagHolders + 0 := countP_set_add hcall
    have hpos : 0 < s.flagHolders :=
      List.countP_pos_iff.2 ⟨_, List.mem_of_getElem? hcall, rfl⟩
    have hone : s.flagHolders = 1 := by
      rw [h] at hpos ⊢
      split
      · rfl
      · rename_i hclear
        rw [if_neg hclear] at hpos
        omega
    rw [hstep, if_neg Bool.false_ne_true]
    change (s.calls.set i .returned).countP CompactionCall.holdsFlag = 0
    omega
  · rw [hsteady.holders, hsteady.flag, h]

/-- Automatic snapshots never overlap in a run exactly if every check of the
writers that succeeds in `_maybeCompact` does so while no other call's snapshot
is in progress.  A flag that is not set at that moment is enough. -/
theorem automaticSnapshots_never_overlap (settings : CompactionSettings)
    (s : CompactingDocument C) (events : List (CompactionEvent C))
    (hcalls : s.calls = []) (hflag : s.compactionInProgress = false) :
    ((∀ k, (exec (step settings) s (events.take k)).AtMostOneAutomatic) ↔
      Guarded (step settings) StartsAlone s events) ∧
    (Guarded (step settings) StartsWithoutFlag s events →
      ∀ k, (exec (step settings) s (events.take k)).AtMostOneAutomatic) := by
  have hkept : s.FlagKept := by
    rw [FlagKept, flagHolders, hcalls, hflag]
    rfl
  refine ⟨forall_exec_take_iff (fun s e => atMostOneAutomatic_step settings s e)
    events s hkept.atMostOneAutomatic, fun hguarded k => ?_⟩
  have hguard : Guarded (step settings) StartsWithoutFlag s
      (events.take k) := by
    rw [← List.take_append_drop k events] at hguarded
    exact (guarded_append_iff.1 hguarded).1
  exact (exec_invariant (fun s e => FlagKept.step settings s e) _ s hkept
    hguard).atMostOneAutomatic

end Order

end Automatic

/-- Compaction after every change, with signed snapshots. -/
def eagerSettings : CompactionSettings := ⟨true, 1, 1, true, true⟩

/-- A second call after the end of the first one finds no flag. -/
theorem automaticSnapshots_never_overlap_serial :
    (exec (step eagerSettings) (fresh : CompactingDocument ℕ)
      [.change 1, .maybeCompact, .resume 0, .resume 0, .resume 0, .resume 0,
        .change 2, .maybeCompact, .resume 1]).AtMostOneAutomatic := by
  refine (automaticSnapshots_never_overlap eagerSettings fresh
    [.change 1, .maybeCompact, .resume 0, .resume 0, .resume 0, .resume 0,
      .change 2, .maybeCompact, .resume 1] rfl rfl).2 ?_ 9
  refine ⟨?_, ?_, ?_, ?_, ?_, ?_, ?_, ?_, ?_, trivial⟩
  -- only the calls that go on are left
  all_goals rintro i ⟨rfl⟩
  · exact fun _ => rfl
  · exact fun hstarts => (nomatch hstarts)
  · exact fun hstarts => (nomatch hstarts)
  · exact fun hstarts => (nomatch hstarts)
  · exact fun _ => rfl

/-- Two calls pass the test of the flag before either sets it, and both start
a snapshot. -/
theorem automaticSnapshots_overlap :
    (fresh : CompactingDocument ℕ).calls = [] ∧
      (exec (step eagerSettings) (fresh : CompactingDocument ℕ)
        [.change 1, .maybeCompact, .maybeCompact, .resume 0,
          .resume 1]).automaticSnapshots = 2 := by
  decide

end CompactingDocument

end Collabswarm.Document
