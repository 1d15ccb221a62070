import Collabswarm.Document.AutomaticCompaction

/-!
# The order of the latest snapshots

`sync` compares an incoming snapshot with the latest one, awaits its signature
and then assigns it without a second comparison; `snapshot` captures the
document, awaits its signature and assigns without comparing at all.  A
snapshot that was overtaken while it was awaited, or captured behind the latest
one, therefore replaces a larger one.
-/

namespace Collabswarm.Document

open SyncState (newer snapshotKey newer_some_iff)

/-- What the call is going to assign, with the number of snapshots that were
latest when it was compared or captured. -/
def CompactionCall.candidate {C : Type} :
    CompactionCall C → Option (Snapshot C × ℕ)
  | .signing _ snapshot writesSeen => some (snapshot, writesSeen)
  | .verifying incoming writesSeen => some (incoming, writesSeen)
  | _ => none

namespace CompactingDocument

variable {C : Type} [LinearOrder C]

/-- What the step assigns to `_latestSnapshot`, with the number of snapshots
that were latest when it was compared or captured. -/
def assignment (settings : CompactionSettings) (s : CompactingDocument C) :
    CompactionEvent C → Option (Snapshot C × ℕ)
  | .receive incoming =>
      if newer incoming s.latestSnapshot && !settings.signingEnabled then
        some (incoming, s.writes.length)
      else none
  | .resume i =>
      match s.calls[i]? with
      | some (.ensuringWriter _) =>
          if settings.canSnapshot && !settings.signingEnabled then
            some (s.captured, s.writes.length)
          else none
      | some call => call.candidate
      | none => none
  | _ => none

/-- A latest snapshot is replaced by one that is not smaller, if at all. -/
def NeverRegresses (settings : CompactionSettings) (s : CompactingDocument C)
    (e : CompactionEvent C) : Prop :=
  ∀ p ∈ s.latestSnapshot, ∀ p' ∈ (s.step settings e).latestSnapshot,
    snapshotKey p ≤ snapshotKey p'

/-- What is assigned was not overtaken: no larger snapshot was assigned since
it was compared or captured, and the one that was latest then does not have
the same count and a larger CID. -/
def NotOvertaken (settings : CompactionSettings) (s : CompactingDocument C)
    (e : CompactionEvent C) : Prop :=
  ∀ a ∈ s.assignment settings e,
    (∀ p ∈ s.writes.drop a.2, snapshotKey p ≤ snapshotKey a.1) ∧
      ∀ p ∈ (s.writes.take a.2).getLast?,
        p.compactedCount = a.1.compactedCount →
          p.lastChangeNodeCID ≤ a.1.lastChangeNodeCID

/-! ## What a step does to the latest snapshot -/

/-- The snapshot that was latest when the candidate was compared or captured
has no larger count. -/
def Weighed (writes : List (Snapshot C)) (candidate : Snapshot C × ℕ) : Prop :=
  candidate.2 ≤ writes.length ∧
    ∀ p ∈ (writes.take candidate.2).getLast?,
      p.compactedCount ≤ candidate.1.compactedCount

omit [LinearOrder C] in
theorem Weighed.append {writes : List (Snapshot C)}
    {candidate : Snapshot C × ℕ} (h : Weighed writes candidate)
    (rest : List (Snapshot C)) : Weighed (writes ++ rest) candidate := by
  refine ⟨h.1.trans (by simp), ?_⟩
  rw [List.take_append_of_le_length h.1]
  exact h.2

/-- What is known about the snapshots that are assigned or awaited. -/
structure Tracked (s : CompactingDocument C) : Prop where
  latest : s.latestSnapshot = s.writes.getLast?
  bounded : ∀ p ∈ s.latestSnapshot, p.compactedCount ≤ s.documentChangeCount
  captured : ∀ automatic snapshot writesSeen,
    .signing automatic snapshot writesSeen ∈ s.calls →
      snapshot.compactedCount ≤ s.documentChangeCount
  weighed : ∀ call ∈ s.calls, ∀ candidate ∈ call.candidate,
    Weighed s.writes candidate
  sorted : ∀ p ∈ s.writes, ∀ latest ∈ s.latestSnapshot,
    snapshotKey p ≤ snapshotKey latest

/-- How a step leads from `s` to `s'`, when `assigned` is what it assigns. -/
structure Assigns (s s' : CompactingDocument C)
    (assigned : Option (Snapshot C × ℕ)) : Prop where
  count : s.documentChangeCount ≤ s'.documentChangeCount
  kept : assigned = none →
    s'.latestSnapshot = s.latestSnapshot ∧ s'.writes = s.writes
  written : ∀ a, assigned = some a →
    s'.latestSnapshot = some a.1 ∧ s'.writes = s.writes ++ [a.1] ∧
      (s.Tracked → Weighed s.writes a ∧
        a.1.compactedCount ≤ s'.documentChangeCount)
  calls : ∀ call ∈ s'.calls, call ∈ s.calls ∨ call.candidate = none ∨
    (∃ automatic, call = .signing automatic s.captured s.writes.length) ∨
    ∃ incoming, newer incoming s.latestSnapshot = true ∧
      call = .verifying incoming s.writes.length

theorem weighed_latest {s : CompactingDocument C} (h : s.Tracked)
    {snapshot : Snapshot C}
    (hle : ∀ p ∈ s.latestSnapshot,
      p.compactedCount ≤ snapshot.compactedCount) :
    Weighed s.writes (snapshot, s.writes.length) := by
  refine ⟨le_rfl, ?_⟩
  rw [List.take_length, ← h.latest]
  exact hle

theorem compactedCount_le_of_key_le {p p' : Snapshot C}
    (h : snapshotKey p ≤ snapshotKey p') :
    p.compactedCount ≤ p'.compactedCount := by
  rw [snapshotKey, snapshotKey, Prod.Lex.toLex_le_toLex] at h
  rcases h with hlt | ⟨heq, -⟩
  · exact hlt.le
  · exact heq.le

theorem weighed_incoming {s : CompactingDocument C} (h : s.Tracked)
    {incoming : Snapshot C} (hnewer : newer incoming s.latestSnapshot = true) :
    Weighed s.writes (incoming, s.writes.length) := by
  refine weighed_latest h fun p hp => ?_
  rw [hp, newer_some_iff] at hnewer
  exact compactedCount_le_of_key_le hnewer.le

/-- A step that assigns nothing. -/
theorem assigns_none {s s' : CompactingDocument C}
    (hcount : s.documentChangeCount ≤ s'.documentChangeCount)
    (hlatest : s'.latestSnapshot = s.latestSnapshot)
    (hwrites : s'.writes = s.writes)
    (hcalls : ∀ call ∈ s'.calls, call ∈ s.calls ∨ call.candidate = none ∨
      (∃ automatic, call = .signing automatic s.captured s.writes.length) ∨
      ∃ incoming, newer incoming s.latestSnapshot = true ∧
        call = .verifying incoming s.writes.length) : Assigns s s' none where
  count := hcount
  kept := fun _ => ⟨hlatest, hwrites⟩
  written := fun _ h => by cases h
  calls := hcalls

theorem assigns_self (s : CompactingDocument C) : Assigns s s none :=
  assigns_none le_rfl rfl rfl fun _ h => Or.inl h

/-- A step that assigns a snapshot. -/
theorem assigns_some {s s' : CompactingDocument C} {a : Snapshot C × ℕ}
    (hcount : s.documentChangeCount ≤ s'.documentChangeCount)
    (hlatest : s'.latestSnapshot = some a.1)
    (hwrites : s'.writes = s.writes ++ [a.1])
    (hweighed : s.Tracked → Weighed s.writes a ∧
      a.1.compactedCount ≤ s'.documentChangeCount)
    (hcalls : ∀ call ∈ s'.calls, call ∈ s.calls ∨ call.candidate = none ∨
      (∃ automatic, call = .signing automatic s.captured s.writes.length) ∨
      ∃ incoming, newer incoming s.latestSnapshot = true ∧
        call = .verifying incoming s.writes.length) :
    Assigns s s' (some a) where
  count := hcount
  kept := fun h => by cases h
  written := by
    rintro _ ⟨rfl⟩
    exact ⟨hlatest, hwrites, hweighed⟩
  calls := hcalls

theorem assigns_maybeCompact (settings : CompactionSettings)
    (s : CompactingDocument C) :
    Assigns s (s.maybeCompact settings) none := by
  have hsame := s.assigns_self
  rw [maybeCompact]
  split
  · exact hsame
  split
  · exact hsame
  split
  · exact hsame
  split
  · exact hsame
  · refine assigns_none le_rfl rfl rfl fun call hcall => ?_
    rcases List.mem_append.1 hcall with hold | hnew
    · exact Or.inl hold
    · cases List.mem_singleton.1 hnew
      exact Or.inr (Or.inl rfl)

theorem assigns_receiveSnapshot (settings : CompactionSettings)
    (s : CompactingDocument C) (incoming : Snapshot C) :
    Assigns s (s.receiveSnapshot settings incoming)
      (s.assignment settings (.receive incoming)) := by
  rw [receiveSnapshot, assignment]
  by_cases hnewer : newer incoming s.latestSnapshot = true
  · rw [if_pos hnewer]
    dsimp only
    by_cases hsigning : settings.signingEnabled = true
    · rw [if_pos hsigning, hsigning, Bool.not_true, Bool.and_false,
        if_neg Bool.false_ne_true]
      refine assigns_none le_rfl rfl rfl fun call hcall => ?_
      rcases List.mem_append.1 hcall with hold | hnew
      · exact Or.inl hold
      · cases List.mem_singleton.1 hnew
        exact Or.inr (Or.inr (Or.inr ⟨incoming, hnewer, rfl⟩))
    · rw [if_neg hsigning, hnewer, Bool.eq_false_of_not_eq_true hsigning,
        Bool.not_false, Bool.and_self, if_pos rfl]
      refine assigns_some (le_max_left _ _) rfl rfl (fun htracked =>
        ⟨weighed_incoming htracked hnewer, le_max_right _ _⟩) ?_
      intro call hcall
      rcases List.mem_or_eq_of_mem_set hcall with hold | rfl
      · rcases List.mem_append.1 hold with hold | hnew
        · exact Or.inl hold
        · cases List.mem_singleton.1 hnew
          exact Or.inr (Or.inr (Or.inr ⟨incoming, hnewer, rfl⟩))
      · exact Or.inr (Or.inl rfl)
  · rw [if_neg hnewer, Bool.eq_false_of_not_eq_true hnewer, Bool.false_and,
      if_neg Bool.false_ne_true]
    exact s.assigns_self

omit [LinearOrder C] in
theorem candidate_ended (automatic : Bool) :
    (ended automatic : CompactionCall C).candidate = none := by
  cases automatic <;> rfl

/-- A call goes on to nothing that it would assign. -/
theorem assigns_set {s s' : CompactingDocument C} {i : ℕ}
    {call : CompactionCall C}
    (hcount : s'.documentChangeCount = s.documentChangeCount)
    (hlatest : s'.latestSnapshot = s.latestSnapshot)
    (hwrites : s'.writes = s.writes) (hcalls : s'.calls = s.calls.set i call)
    (hcall : call.candidate = none) : Assigns s s' none := by
  refine assigns_none hcount.ge hlatest hwrites fun call' hcall' => ?_
  rw [hcalls] at hcall'
  rcases List.mem_or_eq_of_mem_set hcall' with hold | rfl
  · exact Or.inl hold
  · exact Or.inr (Or.inl hcall)

theorem assigns_captureSnapshot (settings : CompactionSettings)
    (s : CompactingDocument C) (i : ℕ) (automatic : Bool) :
    Assigns s (s.captureSnapshot settings i automatic)
      (if settings.canSnapshot && !settings.signingEnabled then
        some (s.captured, s.writes.length) else none) := by
  rw [captureSnapshot]
  by_cases hcan : settings.canSnapshot = true
  · rw [hcan, Bool.not_true, if_neg Bool.false_ne_true, Bool.true_and]
    by_cases hsigning : settings.signingEnabled = true
    · rw [if_pos hsigning, hsigning, Bool.not_true, if_neg Bool.false_ne_true]
      refine assigns_none le_rfl rfl rfl fun call hcall => ?_
      rcases List.mem_or_eq_of_mem_set hcall with hold | rfl
      · exact Or.inl hold
      · exact Or.inr (Or.inr (Or.inl ⟨automatic, rfl⟩))
    · rw [if_neg hsigning, Bool.eq_false_of_not_eq_true hsigning,
        Bool.not_false, if_pos rfl]
      refine assigns_some le_rfl rfl rfl (fun htracked =>
        ⟨weighed_latest htracked htracked.bounded, le_rfl⟩) ?_
      intro call hcall
      rcases List.mem_or_eq_of_mem_set hcall with hold | rfl
      · exact Or.inl hold
      · exact Or.inr (Or.inl (candidate_ended automatic))
  · rw [Bool.eq_false_of_not_eq_true hcan, Bool.not_false, if_pos rfl,
      Bool.false_and, if_neg Bool.false_ne_true]
    exact assigns_set rfl rfl rfl rfl (candidate_ended automatic)

theorem assigns_resume (settings : CompactionSettings)
    (s : CompactingDocument C) (i : ℕ) :
    Assigns s (s.step settings (.resume i))
      (s.assignment settings (.resume i)) := by
  rw [step, assignment]
  rcases hcall : s.calls[i]? with _ | call
  · exact s.assigns_self
  have hmem := List.mem_of_getElem? hcall
  cases call with
  | checkingWriter => exact assigns_set rfl rfl rfl rfl rfl
  | ensuringWriter automatic =>
      exact assigns_captureSnapshot settings s i automatic
  | signing automatic snapshot writesSeen =>
      refine assigns_some le_rfl rfl rfl (fun htracked =>
        ⟨htracked.weighed _ hmem _ rfl, htracked.captured _ _ _ hmem⟩) ?_
      intro call hcall
      rcases List.mem_or_eq_of_mem_set hcall with hold | rfl
      · exact Or.inl hold
      · exact Or.inr (Or.inl (candidate_ended automatic))
  | compacted => exact assigns_set rfl rfl rfl rfl rfl
  | verifying incoming writesSeen =>
      refine assigns_some (le_max_left _ _) rfl rfl (fun htracked =>
        ⟨htracked.weighed _ hmem _ rfl, le_max_right _ _⟩) ?_
      intro call hcall
      rcases List.mem_or_eq_of_mem_set hcall with hold | rfl
      · exact Or.inl hold
      · exact Or.inr (Or.inl rfl)
  | returned => exact s.assigns_self

theorem assigns_fail (settings : CompactionSettings)
    (s : CompactingDocument C) (i : ℕ) :
    Assigns s (s.step settings (.fail i)) none := by
  have hsame := s.assigns_self
  rw [step]
  split
  · exact assigns_set rfl rfl rfl rfl rfl
  · exact assigns_set rfl rfl rfl rfl (candidate_ended _)
  · exact assigns_set rfl rfl rfl rfl (candidate_ended _)
  · exact hsame
  · exact assigns_set rfl rfl rfl rfl rfl
  · exact hsame
  · exact hsame

/-- What a step assigns, and what it leaves to be assigned. -/
theorem assigns_step (settings : CompactionSettings)
    (s : CompactingDocument C) (e : CompactionEvent C) :
    Assigns s (s.step settings e) (s.assignment settings e) := by
  cases e with
  | maybeCompact => exact s.assigns_maybeCompact settings
  | snapshot =>
      refine assigns_none le_rfl rfl rfl fun call hcall => ?_
      rcases List.mem_append.1 hcall with hold | hnew
      · exact Or.inl hold
      · cases List.mem_singleton.1 hnew
        exact Or.inr (Or.inl rfl)
  | receive incoming => exact s.assigns_receiveSnapshot settings incoming
  | change cid =>
      exact assigns_none (Nat.le_succ _) rfl rfl fun _ h => Or.inl h
  | serve changeId => exact assigns_none le_rfl rfl rfl fun _ h => Or.inl h
  | resume i => exact s.assigns_resume settings i
  | fail i => exact s.assigns_fail settings i

/-! ## Runs -/

/-- A step that does not let the latest snapshot regress keeps track of the
snapshots. -/
theorem Tracked.step (settings : CompactionSettings)
    {s : CompactingDocument C} {e : CompactionEvent C} (h : s.Tracked)
    (hkeeps : s.NeverRegresses settings e) : (s.step settings e).Tracked := by
  have hstep := s.assigns_step settings e
  rw [NeverRegresses] at hkeeps
  generalize s.step settings e = s' at hstep hkeeps
  have hlatest : s'.latestSnapshot = s'.writes.getLast? ∧
      (∃ rest, s'.writes = s.writes ++ rest) ∧
      (∀ p ∈ s'.latestSnapshot,
        p.compactedCount ≤ s'.documentChangeCount) ∧
      ∀ p ∈ s'.writes, ∀ latest ∈ s'.latestSnapshot,
        snapshotKey p ≤ snapshotKey latest := by
    rcases hassigned : s.assignment settings e with _ | a
    · obtain ⟨hsame, hwrites⟩ := hstep.kept hassigned
      rw [hsame, hwrites]
      exact ⟨h.latest, ⟨[], by simp⟩,
        fun p hp => (h.bounded p hp).trans hstep.count, h.sorted⟩
    · obtain ⟨hnew, hwrites, hbounded⟩ := hstep.written a hassigned
      rw [hnew] at hkeeps
      rw [hnew, hwrites]
      refine ⟨by simp, ⟨[a.1], rfl⟩, ?_, ?_⟩
      · rintro _ ⟨rfl⟩
        exact (hbounded h).2
      · rintro p hp _ ⟨rfl⟩
        rcases List.mem_append.1 hp with hp | hp
        · rcases hsome : s.latestSnapshot with _ | latest
          · rw [h.latest, List.getLast?_eq_none_iff] at hsome
            rw [hsome] at hp
            cases hp
          · exact (h.sorted p hp latest hsome).trans (hkeeps latest hsome _ rfl)
        · rw [List.mem_singleton.1 hp]
  obtain ⟨hlast, ⟨rest, hwrites⟩, hbounded, hsorted⟩ := hlatest
  refine ⟨hlast, hbounded, ?_, ?_, hsorted⟩
  · intro automatic snapshot writesSeen hcall
    rcases hstep.calls _ hcall with hold | hnone | ⟨_, hnew⟩ | ⟨_, -, hnew⟩
    · exact (h.captured _ _ _ hold).trans hstep.count
    · cases hnone
    · cases hnew
      exact hstep.count
    · cases hnew
  · intro call hcall candidate hcandidate
    rw [hwrites]
    apply Weighed.append
    rcases hstep.calls _ hcall with
      hold | hnone | ⟨_, rfl⟩ | ⟨incoming, hnewer, rfl⟩
    · exact h.weighed call hold candidate hcandidate
    · rw [hnone] at hcandidate
      cases hcandidate
    · cases hcandidate
      exact weighed_latest h h.bounded
    · cases hcandidate
      exact weighed_incoming h hnewer

theorem snapshotKey_le_iff {p p' : Snapshot C}
    (h : p.compactedCount ≤ p'.compactedCount) :
    snapshotKey p ≤ snapshotKey p' ↔
      (p.compactedCount = p'.compactedCount →
        p.lastChangeNodeCID ≤ p'.lastChangeNodeCID) := by
  rw [snapshotKey, snapshotKey, Prod.Lex.toLex_le_toLex]
  constructor
  · rintro (hlt | ⟨-, hle⟩) heq
    · exact absurd heq hlt.ne
    · exact hle
  · intro hle
    rcases h.lt_or_eq with hlt | heq
    · exact Or.inl hlt
    · exact Or.inr ⟨heq, hle heq⟩

/-- The latest snapshot does not regress in a step exactly if what the step
assigns was not overtaken. -/
theorem neverRegresses_iff (settings : CompactionSettings)
    {s : CompactingDocument C} {e : CompactionEvent C} (h : s.Tracked) :
    s.NeverRegresses settings e ↔ s.NotOvertaken settings e := by
  have hstep := s.assigns_step settings e
  rw [NeverRegresses, NotOvertaken]
  rcases hassigned : s.assignment settings e with _ | a
  · rw [(hstep.kept hassigned).1]
    refine ⟨fun _ _ ha => (nomatch ha), fun _ p hp p' hp' => ?_⟩
    cases hp.symm.trans hp'
    exact le_rfl
  obtain ⟨hnew, -, hweighed⟩ := hstep.written a hassigned
  obtain ⟨⟨hseen, hcount⟩, -⟩ := hweighed h
  rw [hnew]
  constructor
  · rintro hkeeps _ ⟨rfl⟩
    have hall : ∀ p ∈ s.writes, snapshotKey p ≤ snapshotKey a.1 := by
      intro p hp
      rcases hsome : s.latestSnapshot with _ | latest
      · rw [h.latest, List.getLast?_eq_none_iff] at hsome
        rw [hsome] at hp
        cases hp
      · exact (h.sorted p hp latest hsome).trans (hkeeps latest hsome _ rfl)
    refine ⟨fun p hp => hall p (List.mem_of_mem_drop hp), fun p hp => ?_⟩
    have hmem := List.mem_of_mem_take (List.mem_of_getLast? hp)
    exact (snapshotKey_le_iff (hcount p hp)).1 (hall p hmem)
  · rintro hguard p hp _ ⟨rfl⟩
    obtain ⟨hlater, hthen⟩ := hguard a rfl
    rw [h.latest, ← List.take_append_drop a.2 s.writes] at hp
    rcases hdrop : s.writes.drop a.2 with _ | ⟨w, ws⟩
    · -- nothing was assigned since: the latest snapshot is the one compared
      rw [hdrop, List.append_nil] at hp
      exact (snapshotKey_le_iff (hcount p hp)).2 (hthen p hp)
    · rw [List.getLast?_append_of_ne_nil _ (by rw [hdrop]; simp)] at hp
      exact hlater p (List.mem_of_getLast? hp)

theorem tracked_fresh : (fresh : CompactingDocument C).Tracked where
  latest := rfl
  bounded := fun _ h => (nomatch h)
  captured := fun _ _ _ h => (nomatch h)
  weighed := fun _ h => (nomatch h)
  sorted := fun _ h => (nomatch h)

/-- In a run of a document, the latest snapshot never regresses exactly if no
snapshot is assigned that was overtaken since it was compared or captured. -/
theorem latestSnapshot_never_regresses (settings : CompactionSettings)
    (events : List (CompactionEvent C)) :
    Guarded (step settings) (NeverRegresses settings)
        (fresh : CompactingDocument C) events ↔
      Guarded (step settings) (NotOvertaken settings) fresh events := by
  have hall : ∀ e ∈ events, (fun _ : CompactionEvent C => True) e :=
    fun _ _ => trivial
  have hassumed : Guarded (step settings) (fun _ _ => True)
      (fresh : CompactingDocument C) events := guarded_of_forall hall
  have hexact : ∀ (s : CompactingDocument C) e, s.Tracked → True →
      (s.NeverRegresses settings e ↔ s.NotOvertaken settings e) :=
    fun s e htracked _ => neverRegresses_iff settings htracked
  have hkeep : ∀ (s : CompactingDocument C) e, s.Tracked → True →
      s.NeverRegresses settings e → (s.step settings e).Tracked :=
    fun s e htracked _ hkeeps => htracked.step settings hkeeps
  exact guarded_iff_guarded hexact hkeep events fresh tracked_fresh hassumed

/-- Two incoming snapshots are both newer than none, and the smaller one is
verified last. -/
theorem latestSnapshot_regresses :
    ¬ Guarded (step eagerSettings) (NeverRegresses eagerSettings)
      (fresh : CompactingDocument ℕ)
      [.receive ⟨{1, 2, 3}, (3 : ℕ), 3⟩,
        .receive ⟨{1, 2, 3, 4, 5}, (5 : ℕ), 5⟩, .resume 1, .resume 0] := by
  rintro ⟨-, -, -, hkeeps, -⟩
  have hle := hkeeps ⟨{1, 2, 3, 4, 5}, (5 : ℕ), 5⟩ rfl
    ⟨{1, 2, 3}, (3 : ℕ), 3⟩ rfl
  revert hle
  decide

end CompactingDocument

end Collabswarm.Document
