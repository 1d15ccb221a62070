import Collabswarm.Support.Transition

/-!
# The first promise that resolves to true

`firstTrue` races wrappers of its promises against `Promise.all` of them.  The
reactions run as jobs of the queue of microtasks, one after the other, while
promises settle in between.  What the race settles to is decided by the order in
which the promises settle: the first `true` or rejection counts.
-/

namespace Collabswarm.FirstTrue

/-- How a promise settles. -/
abbrev Outcome (E : Type) := Except E Bool

/-- A job: a reaction of `p.then(v => v && resolve(true), reject)`, of
`Promise.all`, of `then(() => false)` or of `Promise.race`. -/
inductive Job (E : Type) where
  | wrapped (outcome : Outcome E)
  | all (outcome : Outcome E)
  | thenFalse (outcome : Except E Unit)
  | race (outcome : Outcome E)
  deriving DecidableEq

/-- The promises that have settled, the queue, the number of promises that
`Promise.all` waits for, whether it has rejected, and what the race has settled
to. -/
structure State (ι E : Type) where
  settled : ι → Option (Outcome E)
  queue : List (Job E)
  remaining : ℕ
  rejected : Bool
  result : Option (Outcome E)

/-- A promise settles, or the next job runs. -/
inductive Event (ι E : Type) where
  | settle (promise : ι) (outcome : Outcome E)
  | job

variable {ι E : Type}

namespace State

/-- Put a job at the end of the queue. -/
def enqueue (s : State ι E) (job : Job E) : State ι E :=
  { s with queue := s.queue ++ [job] }

/-- Run a job. -/
def perform (s : State ι E) : Job E → State ι E
  | .wrapped (.ok true) => s.enqueue (.race (.ok true))
  | .wrapped (.ok false) => s
  | .wrapped (.error e) => s.enqueue (.race (.error e))
  | .all (.ok _) =>
      let s := { s with remaining := s.remaining - 1 }
      if s.remaining = 0 then s.enqueue (.thenFalse (.ok ())) else s
  | .all (.error e) =>
      if s.rejected then s
      else { s with rejected := true }.enqueue (.thenFalse (.error e))
  | .thenFalse (.ok ()) => s.enqueue (.race (.ok false))
  | .thenFalse (.error e) => s.enqueue (.race (.error e))
  | .race outcome => { s with result := s.result.or (some outcome) }

/-- Run the job at the front of the queue. -/
def runJob (s : State ι E) : State ι E :=
  match s.queue with
  | [] => s
  | job :: queue => { s with queue := queue }.perform job

end State

/-- The reactions of promises that settle: those of the wrappers were
registered first. -/
def reactions (outcomes : List (Outcome E)) : List (Job E) :=
  outcomes.map .wrapped ++ outcomes.map .all

/-- `firstTrue` on promises of which some have settled: their reactions are in
the queue. -/
def start (promises : List ι) (settled : ι → Option (Outcome E)) :
    State ι E where
  settled := settled
  queue := reactions (promises.filterMap settled) ++
    if promises.isEmpty then [.thenFalse (.ok ())] else []
  remaining := promises.length
  rejected := false
  result := none

section Events

variable [DecidableEq ι] (promises : List ι)

/-- How the places of the list settle when a promise does. -/
def places (promise : ι) (outcome : Outcome E) : List (Outcome E) :=
  (promises.filter (· = promise)).map fun _ => outcome

/-- An event; a promise settles only once. -/
def step (s : State ι E) : Event ι E → State ι E
  | .settle promise outcome =>
      match s.settled promise with
      | some _ => s
      | none =>
          { s with
            settled := Function.update s.settled promise (some outcome)
            queue := s.queue ++ reactions (places promises promise outcome) }
  | .job => s.runJob

/-- The outcomes in the order in which the events settle promises. -/
def arrivals : (ι → Option (Outcome E)) → List (Event ι E) → List (Outcome E)
  | _, [] => []
  | settled, .settle promise outcome :: events =>
      match settled promise with
      | some _ => arrivals settled events
      | none => places promises promise outcome ++
          arrivals (Function.update settled promise (some outcome)) events
  | settled, .job :: events => arrivals settled events

/-- The outcomes in the order of settlement.  Those that have settled at the
call count in the order of the list. -/
def settlementOrder (settled : ι → Option (Outcome E))
    (events : List (Event ι E)) : List (Outcome E) :=
  promises.filterMap settled ++ arrivals promises settled events

end Events

/-! ## The jobs of a queue -/

section Jobs

/-- The outcomes that the wrappers have yet to see. -/
def wrappeds (queue : List (Job E)) : List (Outcome E) :=
  queue.filterMap fun
    | .wrapped outcome => some outcome
    | _ => none

/-- The outcomes that `Promise.all` has yet to see. -/
def alls (queue : List (Job E)) : List (Outcome E) :=
  queue.filterMap fun
    | .all outcome => some outcome
    | _ => none

/-- The outcomes that the race has yet to see. -/
def races (queue : List (Job E)) : List (Outcome E) :=
  queue.filterMap fun
    | .race outcome => some outcome
    | _ => none

/-- The race has settled to this, or will. -/
def State.answer (s : State ι E) : Option (Outcome E) :=
  s.result.or (races s.queue).head?

/-- At each place of the queue, at least as many outcomes are to be seen by
`Promise.all` as by the wrappers. -/
def Behind : List (Job E) → Prop
  | [] => True
  | job :: queue =>
      (wrappeds (job :: queue)).length ≤ (alls (job :: queue)).length ∧
        Behind queue

theorem Behind.length_le {queue : List (Job E)} (h : Behind queue) :
    (wrappeds queue).length ≤ (alls queue).length := by
  cases queue with
  | nil => exact le_rfl
  | cons job queue => exact h.1

theorem Behind.append {queue queue' : List (Job E)} (h : Behind queue)
    (h' : Behind queue') : Behind (queue ++ queue') := by
  induction queue with
  | nil => exact h'
  | cons job queue ih =>
      have hle := h'.length_le
      have hhead := h.1
      rw [List.cons_append, Behind]
      refine ⟨?_, ih h.2⟩
      rw [← List.cons_append, wrappeds, alls, List.filterMap_append,
        List.filterMap_append, List.length_append, List.length_append]
      exact Nat.add_le_add hhead hle

@[simp] theorem wrappeds_append (queue queue' : List (Job E)) :
    wrappeds (queue ++ queue') = wrappeds queue ++ wrappeds queue' :=
  List.filterMap_append

@[simp] theorem alls_append (queue queue' : List (Job E)) :
    alls (queue ++ queue') = alls queue ++ alls queue' :=
  List.filterMap_append

@[simp] theorem races_append (queue queue' : List (Job E)) :
    races (queue ++ queue') = races queue ++ races queue' :=
  List.filterMap_append

@[simp] theorem wrappeds_reactions (outcomes : List (Outcome E)) :
    wrappeds (reactions outcomes) = outcomes := by
  simp [wrappeds, reactions, List.filterMap_map]

@[simp] theorem alls_reactions (outcomes : List (Outcome E)) :
    alls (reactions outcomes) = outcomes := by
  simp [alls, reactions, List.filterMap_map]

@[simp] theorem races_reactions (outcomes : List (Outcome E)) :
    races (reactions outcomes) = [] := by
  simp [races, reactions, List.filterMap_map]

theorem thenFalse_notMem_reactions (outcomes : List (Outcome E))
    (settled : Except E Unit) : .thenFalse settled ∉ reactions outcomes := by
  simp [reactions]

theorem behind_all (outcomes : List (Outcome E)) :
    Behind (outcomes.map .all) := by
  induction outcomes with
  | nil => trivial
  | cons outcome outcomes ih => exact ⟨by simp [wrappeds], ih⟩

theorem behind_reactions (outcomes : List (Outcome E)) :
    Behind (reactions outcomes) := by
  have hle : ∀ os os' : List (Outcome E), os.length ≤ os'.length →
      Behind (os.map .wrapped ++ os'.map .all) := by
    intro os os'
    induction os with
    | nil => exact fun _ => behind_all os'
    | cons o os ih =>
        intro h
        rw [List.length_cons] at h
        refine ⟨?_, ih (by omega)⟩
        simpa [wrappeds, alls] using h
  exact hle outcomes outcomes le_rfl

end Jobs

/-! ## What the race settles to -/

/-- An outcome that decides the race. -/
def decisive : Outcome E → Bool
  | .ok false => false
  | _ => true

/-- The first outcome that decides the race, or `false` once all of `n` outcomes
are there. -/
def verdict (n : ℕ) (outcomes : List (Outcome E)) : Option (Outcome E) :=
  (outcomes.find? decisive).or
    (if outcomes.length = n then some (.ok false) else none)

theorem verdict_of_decisive {n : ℕ} {before after : List (Outcome E)}
    {outcome : Outcome E} (hbefore : ∀ o ∈ before, o = .ok false)
    (h : decisive outcome = true) :
    verdict n (before ++ outcome :: after) = some outcome := by
  have hnone : before.find? decisive = none := by
    rw [List.find?_eq_none]
    intro o ho
    rw [hbefore o ho]
    exact Bool.false_ne_true
  rw [verdict, List.find?_append, hnone, Option.none_or,
    List.find?_cons_of_pos h, Option.some_or]

theorem verdict_of_false {n : ℕ} {outcomes : List (Outcome E)}
    (h : ∀ o ∈ outcomes, o = .ok false) :
    verdict n outcomes = if outcomes.length = n then some (.ok false) else none
    := by
  have hnone : outcomes.find? decisive = none := by
    rw [List.find?_eq_none]
    intro o ho
    rw [h o ho]
    exact Bool.false_ne_true
  rw [verdict, hnone, Option.none_or]

/-- The verdict is `true` where no rejection comes before the first `true`. -/
theorem verdict_of_true {n : ℕ} {outcomes : List (Outcome E)}
    (hmem : .ok true ∈ outcomes)
    (hbefore : ∀ before e after, outcomes = before ++ .error e :: after →
      .ok true ∈ before) : verdict n outcomes = some (.ok true) := by
  have hsome : (outcomes.find? decisive).isSome :=
    List.find?_isSome.2 ⟨_, hmem, rfl⟩
  obtain ⟨outcome, hfind⟩ := Option.isSome_iff_exists.1 hsome
  obtain ⟨hdecisive, before, after, hsplit, hnone⟩ :=
    List.find?_eq_some_iff_append.1 hfind
  rw [verdict, hfind, Option.some_or]
  match outcome with
  | .ok true => rfl
  | .ok false => cases hdecisive
  | .error e => cases hnone _ (hbefore before e after hsplit)

/-- Later outcomes do not change a verdict. -/
theorem verdict_append {n : ℕ} {outcomes later : List (Outcome E)}
    {answer : Outcome E} (h : verdict n outcomes = some answer)
    (hle : (outcomes ++ later).length ≤ n) :
    verdict n (outcomes ++ later) = some answer := by
  rw [verdict] at h ⊢
  cases hfind : outcomes.find? decisive with
  | some o =>
      rw [hfind, Option.some_or] at h
      rw [List.find?_append, hfind, Option.some_or, Option.some_or, h]
  | none =>
      rw [hfind, Option.none_or] at h
      split at h
      · rename_i hlength
        have hlater : later = [] := by
          rw [List.length_append] at hle
          exact List.length_eq_zero_iff.1 (by omega)
        rw [hlater, List.append_nil, hfind, Option.none_or, if_pos hlength, h]
      · cases h

/-! ## The invariant -/

section Invariant

variable (promises : List ι)

/-- How the queue, the race and `Promise.all` stand when these are the outcomes
so far. -/
structure Inv (outcomes : List (Outcome E)) (s : State ι E) : Prop where
  perm : outcomes.Perm (promises.filterMap s.settled)
  wrapped : ∃ seen, outcomes = seen ++ wrappeds s.queue ∧
    (s.answer = none → ∀ o ∈ seen, o = .ok false)
  all : ∃ seen, outcomes = seen ++ alls s.queue ∧
    s.remaining + seen.countP Except.isOk = promises.length
  behind : Behind s.queue
  answered : ∀ o, s.answer = some o →
    verdict promises.length outcomes = some o
  full : .thenFalse (.ok ()) ∈ s.queue →
    outcomes.length = promises.length ∧ wrappeds s.queue = []
  rejected : ∀ e, .thenFalse (.error e) ∈ s.queue → s.answer ≠ none
  finished : s.answer = none → s.remaining = 0 →
    .thenFalse (.ok ()) ∈ s.queue

theorem Inv.length_le {outcomes : List (Outcome E)} {s : State ι E}
    (h : Inv promises outcomes s) : outcomes.length ≤ promises.length := by
  rw [h.perm.length_eq]
  exact List.length_filterMap_le _ _

theorem start_inv (settled : ι → Option (Outcome E)) :
    Inv promises (promises.filterMap settled) (start promises settled) where
  perm := List.Perm.refl _
  wrapped := by
    refine ⟨[], ?_, fun _ o ho => by cases ho⟩
    cases promises with
    | nil => rfl
    | cons p promises =>
        rw [start, List.isEmpty_cons, if_neg Bool.false_ne_true,
          List.append_nil, wrappeds_reactions, List.nil_append]
  all := by
    refine ⟨[], ?_, ?_⟩
    · cases promises with
      | nil => rfl
      | cons p promises =>
          rw [start, List.isEmpty_cons, if_neg Bool.false_ne_true,
            List.append_nil, alls_reactions, List.nil_append]
    · simp [start]
  behind := by
    refine (behind_reactions _).append ?_
    cases promises with
    | nil => exact ⟨le_rfl, trivial⟩
    | cons p promises => trivial
  answered := by
    intro o ho
    have hnone : (start promises settled).answer = none := by
      cases promises with
      | nil => rfl
      | cons p promises =>
          rw [State.answer, start, List.isEmpty_cons,
            if_neg Bool.false_ne_true, List.append_nil, races_reactions]
          rfl
    rw [hnone] at ho
    cases ho
  full := by
    intro h
    cases promises with
    | nil => exact ⟨rfl, rfl⟩
    | cons p promises =>
        simp [start, thenFalse_notMem_reactions] at h
  rejected := by
    intro e h
    cases promises with
    | nil => simp [start, reactions] at h
    | cons p promises => simp [start, thenFalse_notMem_reactions] at h
  finished := by
    intro _ h
    cases promises with
    | nil => simp [start]
    | cons p promises => simp [start] at h

/-- What the reactions of a settling promise are about is what is new in the
list. -/
theorem filterMap_update_perm [DecidableEq ι]
    {settled : ι → Option (Outcome E)} {promise : ι} (hpending : settled promise = none)
    (outcome : Outcome E) :
    (promises.filterMap settled ++ places promises promise outcome).Perm
      (promises.filterMap
        (Function.update settled promise (some outcome))) := by
  induction promises with
  | nil => exact List.Perm.refl _
  | cons p promises ih =>
      rw [places] at ih ⊢
      by_cases hp : p = promise
      · subst hp
        rw [List.filterMap_cons_none hpending,
          List.filter_cons_of_pos (by simp), List.map_cons]
        rw [List.filterMap_cons_some (Function.update_self _ _ _)]
        exact List.perm_middle.trans (ih.cons outcome)
      · rw [List.filter_cons_of_neg (by simpa using hp)]
        have hsame : Function.update settled promise (some outcome) p =
            settled p := Function.update_of_ne hp _ _
        cases hsettled : settled p with
        | none =>
            rw [List.filterMap_cons_none hsettled,
              List.filterMap_cons_none (hsame.trans hsettled)]
            exact ih
        | some o =>
            rw [List.filterMap_cons_some hsettled,
              List.filterMap_cons_some (hsame.trans hsettled)]
            exact ih.cons o

/-- A promise settles. -/
theorem Inv.settle [DecidableEq ι] {outcomes : List (Outcome E)} {s : State ι E}
    (h : Inv promises outcomes s) {promise : ι}
    (hpending : s.settled promise = none) (outcome : Outcome E) :
    Inv promises (outcomes ++ places promises promise outcome)
      (step promises s (.settle promise outcome)) := by
  set new := places promises promise outcome with hnew
  have hstep : step promises s (.settle promise outcome) = { s with
      settled := Function.update s.settled promise (some outcome)
      queue := s.queue ++ reactions new } := by
    rw [step, hpending]
  have hperm : (outcomes ++ new).Perm (promises.filterMap
      (Function.update s.settled promise (some outcome))) :=
    (h.perm.append_right new).trans
      (filterMap_update_perm promises hpending outcome)
  have hle : (outcomes ++ new).length ≤ promises.length := by
    rw [hperm.length_eq]
    exact List.length_filterMap_le _ _
  have hanswer : (step promises s (.settle promise outcome)).answer =
      s.answer := by
    rw [hstep, State.answer, State.answer, races_append, races_reactions,
      List.append_nil]
  have hmem : ∀ r, .thenFalse r ∈ s.queue ++ reactions new →
      .thenFalse r ∈ s.queue := by
    intro r hr
    rcases List.mem_append.1 hr with hr | hr
    · exact hr
    · exact absurd hr (thenFalse_notMem_reactions new r)
  constructor
  · rw [hstep]
    exact hperm
  · obtain ⟨seen, hseen, hfalse⟩ := h.wrapped
    refine ⟨seen, ?_, fun hnone => hfalse (hanswer.symm.trans hnone)⟩
    rw [hstep, wrappeds_append, wrappeds_reactions, hseen, List.append_assoc]
  · obtain ⟨seen, hseen, hremaining⟩ := h.all
    refine ⟨seen, ?_, ?_⟩
    · rw [hstep, alls_append, alls_reactions, hseen, List.append_assoc]
    · rw [hstep]
      exact hremaining
  · rw [hstep]
    exact h.behind.append (behind_reactions new)
  · intro o ho
    rw [hanswer] at ho
    exact verdict_append (h.answered o ho) hle
  · intro hfull
    rw [hstep] at hfull
    obtain ⟨hlength, hwrappeds⟩ := h.full (hmem _ hfull)
    have hnil : new = [] := by
      rw [List.length_append] at hle
      exact List.length_eq_zero_iff.1 (by omega)
    rw [hstep, hnil, List.append_nil, wrappeds_append, wrappeds_reactions,
      hwrappeds]
    exact ⟨hlength, rfl⟩
  · intro e he
    rw [hanswer]
    rw [hstep] at he
    exact h.rejected e (hmem _ he)
  · intro hnone hzero
    rw [hanswer] at hnone
    rw [hstep] at hzero ⊢
    exact List.mem_append_left _ (h.finished hnone hzero)

/-! ## Running jobs -/

variable {promises}

theorem answer_enqueue_race (s : State ι E) (outcome : Outcome E) :
    (s.enqueue (.race outcome)).answer = s.answer.or (some outcome) := by
  rw [State.answer, State.answer, State.enqueue, races_append,
    List.head?_append, Option.or_assoc]
  rfl

theorem answer_enqueue_thenFalse (s : State ι E) (settled : Except E Unit) :
    (s.enqueue (.thenFalse settled)).answer = s.answer := by
  rw [State.answer, State.answer, State.enqueue, races_append]
  simp [races]

/-- An outcome enters the race. -/
theorem Inv.enter {outcomes : List (Outcome E)} {s : State ι E} {job : Job E}
    {queue : List (Job E)} {outcome : Outcome E}
    (h : Inv promises outcomes { s with queue := job :: queue })
    (hwrapped : ∃ seen, outcomes = seen ++ wrappeds queue)
    (halls : alls (job :: queue) = alls queue)
    (hraces : races (job :: queue) = races queue)
    (hfirst : State.answer { s with queue := queue } = none →
      verdict promises.length outcomes = some outcome)
    (hfull : .thenFalse (.ok ()) ∈ queue → wrappeds queue = []) :
    Inv promises outcomes
      ({ s with queue := queue }.enqueue (.race outcome)) := by
  have hanswer := answer_enqueue_race { s with queue := queue } outcome
  have hsome : ({ s with queue := queue }.enqueue (.race outcome)).answer ≠
      none := by
    rw [hanswer]
    simp
  have hmem : .thenFalse (.ok ()) ∈
      ({ s with queue := queue }.enqueue (.race outcome)).queue →
        .thenFalse (.ok ()) ∈ queue := by
    simp [State.enqueue]
  constructor
  · exact h.perm
  · obtain ⟨seen, hseen⟩ := hwrapped
    refine ⟨seen, ?_, fun hnone => absurd hnone hsome⟩
    rw [hseen]
    simp [State.enqueue, wrappeds]
  · obtain ⟨seen, hseen, hremaining⟩ := h.all
    refine ⟨seen, ?_, hremaining⟩
    rw [hseen, halls]
    simp [State.enqueue, alls]
  · exact h.behind.2.append ⟨le_rfl, trivial⟩
  · intro o ho
    rw [hanswer] at ho
    cases hcase : State.answer { s with queue := queue } with
    | some o' =>
        rw [hcase, Option.some_or] at ho
        refine h.answered o ?_
        rw [← ho, ← hcase, State.answer, State.answer, hraces]
    | none =>
        rw [hcase, Option.none_or] at ho
        rw [← ho]
        exact hfirst hcase
  · intro hqueue
    refine ⟨(h.full (List.mem_cons_of_mem _ (hmem hqueue))).1, ?_⟩
    rw [State.enqueue, wrappeds_append, hfull (hmem hqueue)]
    rfl
  · exact fun _ _ => hsome
  · exact fun hnone => absurd hnone hsome

/-- A decisive outcome that a wrapper sees enters the race. -/
theorem Inv.wrapped_decisive {outcomes : List (Outcome E)} {s : State ι E}
    {outcome : Outcome E} {queue : List (Job E)}
    (h : Inv promises outcomes { s with queue := .wrapped outcome :: queue })
    (hdecisive : decisive outcome = true) :
    Inv promises outcomes
      ({ s with queue := queue }.enqueue (.race outcome)) := by
  obtain ⟨seen, hseen, hfalse⟩ := h.wrapped
  have hsplit : outcomes = seen ++ outcome :: wrappeds queue := hseen
  refine h.enter ⟨seen ++ [outcome], ?_⟩ rfl rfl ?_ ?_
  · rw [hsplit, List.append_assoc, List.singleton_append]
  · intro hnone
    rw [hsplit]
    exact verdict_of_decisive (hfalse hnone) hdecisive
  · intro hfull
    cases (h.full (List.mem_cons_of_mem _ hfull)).2

/-- Where a wrapper sees `false`, nothing happens. -/
theorem Inv.wrapped_false {outcomes : List (Outcome E)} {s : State ι E}
    {queue : List (Job E)}
    (h : Inv promises outcomes
      { s with queue := .wrapped (.ok false) :: queue }) :
    Inv promises outcomes { s with queue := queue } := by
  constructor
  · exact h.perm
  · obtain ⟨seen, hseen, hfalse⟩ := h.wrapped
    refine ⟨seen ++ [.ok false], ?_, fun hnone o ho => ?_⟩
    · rw [hseen]
      simp [wrappeds]
    · rcases List.mem_append.1 ho with ho | ho
      · exact hfalse hnone o ho
      · exact List.mem_singleton.1 ho
  · exact h.all
  · exact h.behind.2
  · exact h.answered
  · intro hfull
    cases (h.full (List.mem_cons_of_mem _ hfull)).2
  · exact fun e he => h.rejected e (List.mem_cons_of_mem _ he)
  · intro hnone hzero
    simpa using h.finished hnone hzero

/-- `Promise.all` sees a value. -/
theorem Inv.all_ok {outcomes : List (Outcome E)} {s : State ι E} {value : Bool}
    {queue : List (Job E)}
    (h : Inv promises outcomes
      { s with queue := .all (.ok value) :: queue }) :
    Inv promises outcomes
      ({ s with queue := queue }.perform (.all (.ok value))) := by
  have hlength := h.length_le
  have hbehind := h.behind.2.length_le
  obtain ⟨seen, hseen, hremaining⟩ := h.all
  have hall : outcomes = (seen ++ [.ok value]) ++ alls queue := by
    rw [hseen]
    simp [alls]
  have hcount : (seen ++ [Except.ok value]).countP Except.isOk =
      seen.countP Except.isOk + 1 := by
    rw [List.countP_append]
    rfl
  have hle : (seen ++ [Except.ok value]).countP Except.isOk ≤
      (seen ++ [Except.ok value]).length := List.countP_le_length
  have htotal := congrArg List.length hall
  rw [List.length_append] at htotal
  dsimp only at hremaining
  rw [State.perform]
  dsimp only
  split
  · rename_i hzero
    have hnil : alls queue = [] := List.length_eq_zero_iff.1 (by omega)
    constructor
    · exact h.perm
    · obtain ⟨seen, hseen, hfalse⟩ := h.wrapped
      refine ⟨seen, ?_, ?_⟩
      · rw [hseen]
        simp [State.enqueue, wrappeds]
      · exact fun hnone =>
          hfalse ((answer_enqueue_thenFalse _ _).symm.trans hnone)
    · refine ⟨seen ++ [.ok value], ?_, ?_⟩
      · rw [hall]
        simp [State.enqueue, alls]
      · dsimp only [State.enqueue]
        omega
    · exact h.behind.2.append ⟨le_rfl, trivial⟩
    · exact fun o ho =>
        h.answered o ((answer_enqueue_thenFalse _ _).symm.trans ho)
    · intro _
      refine ⟨by omega, ?_⟩
      rw [State.enqueue, wrappeds_append]
      rw [hnil, List.length_nil] at hbehind
      rw [List.length_eq_zero_iff.1 (Nat.le_zero.1 hbehind)]
      rfl
    · intro e he
      have hmem : .thenFalse (.error e) ∈ queue := by
        simpa [State.enqueue] using he
      rw [answer_enqueue_thenFalse]
      exact h.rejected e (List.mem_cons_of_mem _ hmem)
    · intro _ _
      exact List.mem_append_right _ List.mem_cons_self
  · rename_i hpending
    constructor
    · exact h.perm
    · exact h.wrapped
    · refine ⟨seen ++ [.ok value], hall, ?_⟩
      dsimp only
      omega
    · exact h.behind.2
    · exact h.answered
    · intro hfull
      exact h.full (List.mem_cons_of_mem _ hfull)
    · exact fun e he => h.rejected e (List.mem_cons_of_mem _ he)
    · intro _ hzero
      exact absurd hzero hpending

/-- A rejection that `Promise.all` sees has entered the race before. -/
theorem Inv.answer_of_error {outcomes : List (Outcome E)} {s : State ι E}
    {e : E} {queue : List (Job E)}
    (h : Inv promises outcomes
      { s with queue := .all (.error e) :: queue }) :
    State.answer { s with queue := queue } ≠ none := by
  intro hnone
  obtain ⟨seen, hseen, hfalse⟩ := h.wrapped
  obtain ⟨seen', hseen', -⟩ := h.all
  -- the rejection is among what the wrappers have seen
  have hsplit : seen' ++ [.error e] ++ alls queue = outcomes := by
    rw [hseen']
    simp [alls]
  have hprefix : seen' ++ [.error e] <+: seen := by
    refine List.prefix_of_prefix_length_le ⟨_, hsplit⟩ ⟨_, hseen.symm⟩ ?_
    have hlengths := congrArg List.length (hsplit.trans hseen)
    have hbehind := h.behind.2.length_le
    have hsame : (wrappeds (Job.all (.error e) :: queue)).length =
        (wrappeds queue).length := rfl
    simp only [List.length_append] at hlengths ⊢
    omega
  have herror : .error e ∈ seen :=
    hprefix.subset (List.mem_append_right _ List.mem_cons_self)
  cases hfalse hnone _ herror

/-- `Promise.all` sees a rejection, which a wrapper has seen before. -/
theorem Inv.all_error {outcomes : List (Outcome E)} {s : State ι E} {e : E}
    {queue : List (Job E)}
    (h : Inv promises outcomes
      { s with queue := .all (.error e) :: queue }) :
    Inv promises outcomes
      ({ s with queue := queue }.perform (.all (.error e))) := by
  have hanswer := h.answer_of_error
  have hall : ∃ seen, outcomes = seen ++ alls queue ∧
      s.remaining + seen.countP Except.isOk = promises.length := by
    obtain ⟨seen, hseen, hremaining⟩ := h.all
    refine ⟨seen ++ [.error e], ?_, ?_⟩
    · rw [hseen]
      simp [alls]
    · rw [List.countP_append]
      exact hremaining
  have hfull : .thenFalse (.ok ()) ∈ queue →
      outcomes.length = promises.length ∧ wrappeds queue = [] :=
    fun hmem => h.full (List.mem_cons_of_mem _ hmem)
  rw [State.perform]
  split
  · constructor
    · exact h.perm
    · exact h.wrapped
    · exact hall
    · exact h.behind.2
    · exact h.answered
    · exact hfull
    · exact fun e' he' => h.rejected e' (List.mem_cons_of_mem _ he')
    · exact fun hnone => absurd hnone hanswer
  · have hsame := answer_enqueue_thenFalse { s with queue := queue }
      (Except.error e)
    constructor
    · exact h.perm
    · obtain ⟨seen, hseen, -⟩ := h.wrapped
      refine ⟨seen, ?_, fun hnone => absurd (hsame.symm.trans hnone) hanswer⟩
      rw [hseen]
      simp [State.enqueue, wrappeds]
    · obtain ⟨seen, hseen, hremaining⟩ := hall
      refine ⟨seen, ?_, hremaining⟩
      rw [hseen]
      simp [State.enqueue, alls]
    · exact h.behind.2.append ⟨le_rfl, trivial⟩
    · exact fun o ho => h.answered o (hsame.symm.trans ho)
    · intro hmem
      have hqueue : .thenFalse (.ok ()) ∈ queue := by
        simpa [State.enqueue] using hmem
      refine ⟨(hfull hqueue).1, ?_⟩
      rw [State.enqueue, wrappeds_append, (hfull hqueue).2]
      rfl
    · exact fun _ _ hnone => hanswer (hsame.symm.trans hnone)
    · exact fun hnone => absurd (hsame.symm.trans hnone) hanswer

/-- The reaction on `Promise.all` enters the race: with `false` if nothing else
did, with a rejection only behind another outcome. -/
theorem Inv.thenFalse {outcomes : List (Outcome E)} {s : State ι E}
    {settled : Except E Unit} {queue : List (Job E)}
    (h : Inv promises outcomes
      { s with queue := .thenFalse settled :: queue }) :
    Inv promises outcomes
      ({ s with queue := queue }.enqueue
        (.race (settled.map fun _ => false))) := by
  obtain ⟨seen, hseen, hfalse⟩ := h.wrapped
  refine h.enter ⟨seen, hseen⟩ rfl rfl ?_ ?_
  · intro hnone
    cases settled with
    | error e => exact absurd hnone (h.rejected e List.mem_cons_self)
    | ok value =>
        obtain ⟨hlength, hnil⟩ := h.full List.mem_cons_self
        rw [hnil, List.append_nil] at hseen
        rw [verdict_of_false (hseen ▸ hfalse hnone), if_pos hlength]
        rfl
  · exact fun hfull => (h.full (List.mem_cons_of_mem _ hfull)).2

/-- The race sees an outcome. -/
theorem Inv.race {outcomes : List (Outcome E)} {s : State ι E}
    {outcome : Outcome E} {queue : List (Job E)}
    (h : Inv promises outcomes { s with queue := .race outcome :: queue }) :
    Inv promises outcomes
      ({ s with queue := queue }.perform (.race outcome)) := by
  have hanswer : ({ s with queue := queue }.perform (.race outcome)).answer =
      State.answer { s with queue := .race outcome :: queue } := by
    rw [State.answer, State.answer, State.perform]
    cases s.result with
    | none => rfl
    | some o => rfl
  constructor
  · exact h.perm
  · obtain ⟨seen, hseen, hfalse⟩ := h.wrapped
    exact ⟨seen, hseen, fun hnone => hfalse (hanswer.symm.trans hnone)⟩
  · exact h.all
  · exact h.behind.2
  · exact fun o ho => h.answered o (hanswer.symm.trans ho)
  · exact fun hfull => h.full (List.mem_cons_of_mem _ hfull)
  · intro e he
    rw [hanswer]
    exact h.rejected e (List.mem_cons_of_mem _ he)
  · intro hnone hzero
    rw [hanswer] at hnone
    have hmem := h.finished hnone hzero
    simpa [State.perform] using hmem

theorem Inv.runJob {outcomes : List (Outcome E)} {s : State ι E}
    (h : Inv promises outcomes s) : Inv promises outcomes s.runJob := by
  rw [State.runJob]
  cases hqueue : s.queue with
  | nil => exact h
  | cons job queue =>
      have h : Inv promises outcomes { s with queue := job :: queue } := by
        rw [← hqueue]
        exact h
      cases job with
      | wrapped outcome =>
          match outcome, h with
          | .ok true, h => exact h.wrapped_decisive rfl
          | .ok false, h => exact h.wrapped_false
          | .error e, h => exact h.wrapped_decisive rfl
      | all outcome =>
          cases outcome with
          | ok value => exact h.all_ok
          | error e => exact h.all_error
      | thenFalse settled =>
          cases settled with
          | ok value => exact h.thenFalse
          | error e => exact h.thenFalse
      | race outcome => exact h.race

/-- Once the queue is empty, the race has settled as the outcomes say. -/
theorem Inv.result_eq {outcomes : List (Outcome E)} {s : State ι E}
    (h : Inv promises outcomes s) (hqueue : s.queue = []) :
    s.result = verdict promises.length outcomes := by
  have hanswer : s.answer = s.result := by
    rw [State.answer, hqueue]
    exact Option.or_none
  cases hresult : s.result with
  | some o => exact (h.answered o (hanswer.trans hresult)).symm
  | none =>
      have hnone := hanswer.trans hresult
      obtain ⟨seen, hseen, hfalse⟩ := h.wrapped
      obtain ⟨seen', hseen', hremaining⟩ := h.all
      have hwrappeds : wrappeds s.queue = [] := by rw [hqueue]; rfl
      have halls : alls s.queue = [] := by rw [hqueue]; rfl
      rw [hwrappeds, List.append_nil] at hseen
      rw [halls, List.append_nil] at hseen'
      subst hseen hseen'
      have hall : outcomes.countP Except.isOk = outcomes.length := by
        rw [List.countP_eq_length]
        intro o ho
        rw [hfalse hnone o ho]
        rfl
      have hpending : s.remaining ≠ 0 := by
        intro hzero
        have hmem := h.finished hnone hzero
        rw [hqueue] at hmem
        cases hmem
      rw [verdict_of_false (hfalse hnone), if_neg (by omega)]

end Invariant

/-! ## Runs -/

section Runs

variable [DecidableEq ι] (promises : List ι)

omit [DecidableEq ι] in
theorem perform_settled (s : State ι E) (job : Job E) :
    (s.perform job).settled = s.settled := by
  fun_cases State.perform s job <;> rfl

omit [DecidableEq ι] in
theorem perform_result {s : State ι E} {outcome : Outcome E}
    (h : s.result = some outcome) (job : Job E) :
    (s.perform job).result = some outcome := by
  fun_cases State.perform s job <;> simp_all +zetaDelta [State.enqueue]

/-- How many jobs a job leads to, itself included. -/
def Job.work : Job E → ℕ
  | .wrapped _ => 2
  | .all _ => 3
  | .thenFalse _ => 2
  | .race _ => 1

/-- How many jobs a queue leads to at most. -/
def work (queue : List (Job E)) : ℕ := (queue.map Job.work).sum

omit [DecidableEq ι] in
theorem work_perform (s : State ι E) (job : Job E) :
    work (s.perform job).queue + 1 ≤ job.work + work s.queue := by
  fun_cases State.perform s job <;>
    simp_all +zetaDelta [State.enqueue, work, Job.work] <;> omega

omit [DecidableEq ι] in
theorem runJob_settled (s : State ι E) : s.runJob.settled = s.settled := by
  rw [State.runJob]
  split
  · rfl
  · exact perform_settled _ _

omit [DecidableEq ι] in
theorem runJob_result {s : State ι E} {outcome : Outcome E}
    (h : s.result = some outcome) : s.runJob.result = some outcome := by
  rw [State.runJob]
  split
  · exact h
  · rename_i job queue _
    exact @perform_result _ _ { s with queue := queue } _ h job

theorem exec_inv : ∀ (events : List (Event ι E)) (outcomes : List (Outcome E))
    (s : State ι E), Inv promises outcomes s →
      Inv promises (outcomes ++ arrivals promises s.settled events)
        (exec (step promises) s events) := by
  intro events
  induction events with
  | nil =>
      intro outcomes s h
      rw [arrivals, List.append_nil]
      exact h
  | cons event events ih =>
      intro outcomes s h
      rw [exec_cons]
      cases event with
      | job =>
          have hrest := ih outcomes s.runJob h.runJob
          rw [runJob_settled] at hrest
          exact hrest
      | settle promise outcome =>
          cases hpending : s.settled promise with
          | some o =>
              rw [arrivals, step, hpending]
              exact ih outcomes s h
          | none =>
              have hrest := ih _ _ (h.settle promises hpending outcome)
              rw [arrivals, hpending]
              rw [List.append_assoc, step, hpending] at hrest
              rw [step, hpending]
              exact hrest

/-- Running that many jobs empties the queue. -/
theorem queue_drained : ∀ (n : ℕ) (s : State ι E), work s.queue ≤ n →
    (exec (step promises) s (List.replicate n .job)).queue = [] := by
  intro n
  induction n with
  | zero =>
      intro s h
      cases hqueue : s.queue with
      | nil => exact hqueue
      | cons job queue =>
          have hperform := work_perform { s with queue := queue } job
          rw [hqueue, work, List.map_cons, List.sum_cons, ← work] at h
          dsimp only at hperform
          omega
  | succ n ih =>
      intro s h
      refine ih s.runJob ?_
      rw [State.runJob]
      cases hqueue : s.queue with
      | nil => simp [hqueue, work]
      | cons job queue =>
          have hperform := work_perform { s with queue := queue } job
          rw [hqueue, work, List.map_cons, List.sum_cons, ← work] at h
          dsimp only at hperform ⊢
          omega

theorem result_drained {outcome : Outcome E} : ∀ (n : ℕ) (s : State ι E),
    s.result = some outcome →
      (exec (step promises) s (List.replicate n .job)).result =
        some outcome := by
  intro n
  induction n with
  | zero =>
      intro s h
      exact h
  | succ n ih =>
      intro s h
      exact ih s.runJob (runJob_result h)

/-- Running jobs settles no promise of the list. -/
theorem drained_inv {outcomes : List (Outcome E)} : ∀ (n : ℕ) (s : State ι E),
    Inv promises outcomes s → Inv promises outcomes
      (exec (step promises) s (List.replicate n .job)) := by
  intro n
  induction n with
  | zero =>
      intro s h
      exact h
  | succ n ih =>
      intro s h
      exact ih s.runJob h.runJob

/-- Whatever the order of settlement, the race answers `true` if a promise does
and no rejection comes first, and `false` if all promises do. -/
theorem firstTrue_resolves (settled : ι → Option (Outcome E))
    (events : List (Event ι E)) :
    let s := exec (step promises) (start promises settled) events
    let drained := exec (step promises) s
      (List.replicate (work s.queue) .job)
    drained.queue = [] ∧
      (∀ outcome, s.result = some outcome → drained.result = some outcome) ∧
      ((∃ p ∈ promises, s.settled p = some (.ok true)) →
        (∀ before e after, settlementOrder promises settled events =
          before ++ .error e :: after → .ok true ∈ before) →
        drained.result = some (.ok true)) ∧
      ((∀ p ∈ promises, s.settled p = some (.ok false)) →
        drained.result = some (.ok false)) := by
  intro s drained
  have hinv : Inv promises (settlementOrder promises settled events) s :=
    exec_inv promises events _ _ (start_inv promises settled)
  have hdrained := drained_inv promises (work s.queue) s hinv
  have hqueue : drained.queue = [] :=
    queue_drained promises _ s le_rfl
  have hresult := hdrained.result_eq hqueue
  refine ⟨hqueue, fun outcome h => result_drained promises _ s h, ?_, ?_⟩
  · rintro ⟨p, hp, htrue⟩ hbefore
    have hmem : .ok true ∈ settlementOrder promises settled events :=
      hinv.perm.mem_iff.2 (List.mem_filterMap.2 ⟨p, hp, htrue⟩)
    exact hresult.trans (verdict_of_true hmem hbefore)
  · intro hfalse
    have hall : ∀ o ∈ settlementOrder promises settled events,
        o = .ok false := by
      intro o ho
      obtain ⟨p, hp, ho⟩ := List.mem_filterMap.1 (hinv.perm.mem_iff.1 ho)
      exact Option.some.inj (ho.symm.trans (hfalse p hp))
    have hlength : (settlementOrder promises settled events).length =
        promises.length := by
      rw [hinv.perm.length_eq, List.filterMap_length_eq_length]
      intro p hp
      rw [hfalse p hp]
      rfl
    exact hresult.trans ((verdict_of_false hall).trans (if_pos hlength))

end Runs

/-- A promise resolves to `false` and another to `true`. -/
theorem firstTrue_resolves_second :
    (exec (step [0, 1]) (start [0, 1] fun _ => none)
      ([.settle 0 (.ok false), .settle 1 (.ok true)] ++
        List.replicate 10 .job : List (Event ℕ Unit))).result =
      some (.ok true) := by
  have h := firstTrue_resolves [0, 1] (fun _ => none)
    ([.settle 0 (.ok false), .settle 1 (.ok true)] : List (Event ℕ Unit))
  rw [exec_append]
  refine h.2.2.1 ⟨1, by decide, rfl⟩ ?_
  intro before e after hsplit
  have herror : .error e ∈ settlementOrder [0, 1] (fun _ => none)
      ([.settle 0 (.ok false), .settle 1 (.ok true)] : List (Event ℕ Unit)) :=
    hsplit ▸ List.mem_append_right _ List.mem_cons_self
  have horder : settlementOrder [0, 1] (fun _ => none)
      ([.settle 0 (.ok false), .settle 1 (.ok true)] : List (Event ℕ Unit)) =
        [.ok false, .ok true] := rfl
  rw [horder] at herror
  simp at herror

/-- A promise resolves to `true` after another was rejected. -/
theorem firstTrue_rejects :
    let s := exec (step [0, 1]) (start [0, 1] fun _ => none)
      [.settle 0 (.error ()), .settle 1 (.ok true)]
    let drained := exec (step [0, 1]) s (List.replicate 10 .job)
    s.settled 1 = some (.ok true) ∧ drained.queue = [] ∧
      drained.result = some (.error ()) :=
  ⟨rfl, rfl, rfl⟩

end Collabswarm.FirstTrue
