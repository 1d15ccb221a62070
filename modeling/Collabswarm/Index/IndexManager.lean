import Collabswarm.Index.Value
import Collabswarm.Support.InsertionMap
import Collabswarm.Support.Lists
import Collabswarm.Support.Transition

/-!
# Overlapping updates of an index

`updateIndex` reads the stored fields of a document in each index that matches
its path, compares them with the fields it extracted, and writes where they
differ.  Every storage operation is awaited, and the integration starts a call
on every change without waiting for the calls before it, so the operations of
several calls for one document interleave.

A call that was started earlier may then write after a later call has written,
or after a later call has found its own fields stored and written nothing.

The extraction of the fields is a parameter.
-/

namespace Collabswarm.Index

/-- `IndexDefinition`: the name is the key under which it is registered. -/
structure IndexDefinition where
  collectionPrefix : JsString
  fields : List JsString

/-- A running call of `updateIndex`: the snapshot it took, the indexes it has
not finished with, and whether it is about to write the first of them. -/
structure UpdateCall (S : Type) where
  snapshot : S
  todo : List (JsString × IndexDefinition)
  writing : Bool

/-- What is stored for the document in each index, and the calls in the order
in which they were started. -/
structure IndexUpdates (S : Type) where
  stored : JsString → Option Value
  calls : List (UpdateCall S)

/-- A call is started, or the storage operation of a call completes. -/
inductive UpdateEvent (S : Type) where
  | start (snapshot : S)
  | advance (call : ℕ)

/-- The registered indexes, the path of the document and the extraction of the
fields. -/
structure UpdateSetting (S : Type) where
  definitions : InsertionMap JsString IndexDefinition
  documentPath : JsString
  extract : S → IndexDefinition → Value

/-- The indexes that match the path, in the order of their registration. -/
def UpdateSetting.matching {S : Type} (U : UpdateSetting S) :
    List (JsString × IndexDefinition) :=
  U.definitions.entries.filter fun e =>
    e.2.collectionPrefix.isPrefixOf U.documentPath

namespace IndexUpdates

section Steps

variable {S : Type} (U : UpdateSetting S)

/-- No calls. -/
def idle (stored : JsString → Option Value) : IndexUpdates S := ⟨stored, []⟩

/-- A call goes on to the next index. -/
def goOn (s : IndexUpdates S) (i : ℕ) (call : UpdateCall S)
    (todo : List (JsString × IndexDefinition)) : List (UpdateCall S) :=
  s.calls.set i { call with todo, writing := false }

/-- `updateIndex` from one storage operation to the next: a call compares what
it read and skips the write where nothing changed, or it writes. -/
def advance (s : IndexUpdates S) (i : ℕ) (call : UpdateCall S) :
    IndexUpdates S :=
  match call.todo with
  | [] => s
  | (indexName, definition) :: todo =>
      let fields := U.extract call.snapshot definition
      if call.writing then
        { stored := Function.update s.stored indexName (some fields)
          calls := s.goOn i call todo }
      else if (s.stored indexName).any (Value.fieldsEqual · fields) then
        { s with calls := s.goOn i call todo }
      else { s with calls := s.calls.set i { call with writing := true } }

/-- The state after an event. -/
def step (s : IndexUpdates S) : UpdateEvent S → IndexUpdates S
  | .start snapshot =>
      { s with calls := s.calls ++ [⟨snapshot, U.matching, false⟩] }
  | .advance i =>
      match s.calls[i]? with
      | some call => advance U s i call
      | none => s

/-- Call `i` has finished with the index. -/
def Finished (s : IndexUpdates S) (indexName : JsString) (i : ℕ) : Prop :=
  ∃ call, s.calls[i]? = some call ∧ indexName ∉ call.todo.map Prod.fst

/-- The index holds the fields of the latest call that has finished with it. -/
def LatestStored (s : IndexUpdates S) : Prop :=
  ∀ e ∈ U.matching, ∀ i call, s.calls[i]? = some call →
    s.Finished e.1 i → (∀ j, i < j → ¬ s.Finished e.1 j) →
      (s.stored e.1).map Value.data = some (U.extract call.snapshot e.2).data

/-- All calls have finished. -/
def AllFinished (s : IndexUpdates S) : Prop := ∀ call ∈ s.calls, call.todo = []

/-- A call writes an index only while no call that was started later has
finished with it, or if the latest of these extracted the same fields; and
where it is the latest call to finish with an index and finds nothing changed,
its own fields are stored. -/
def InOrder (s : IndexUpdates S) : UpdateEvent S → Prop
  | .start _ => True
  | .advance i => ∀ call indexName definition todo, s.calls[i]? = some call →
      call.todo = (indexName, definition) :: todo →
      if call.writing then
        ∀ j later, i < j → s.calls[j]? = some later →
          s.Finished indexName j → (∀ k, j < k → ¬ s.Finished indexName k) →
            (U.extract call.snapshot definition).data =
              (U.extract later.snapshot definition).data
      else
        (∀ j, i < j → ¬ s.Finished indexName j) → ∀ existing,
          s.stored indexName = some existing →
            existing.fieldsEqual (U.extract call.snapshot definition) = true →
              existing.data = (U.extract call.snapshot definition).data

end Steps

/-! ## The latest call -/

section Latest

variable {S : Type} {U : UpdateSetting S} {s : IndexUpdates S}

/-- The calls work through the matching indexes. -/
def Ordered (U : UpdateSetting S) (s : IndexUpdates S) : Prop :=
  ∀ call ∈ s.calls, call.todo <:+ U.matching

theorem nodup_matching (U : UpdateSetting S) :
    (U.matching.map Prod.fst).Nodup :=
  U.definitions.nodup.sublist (InsertionMap.map_fst_filter_sublist _ _)

theorem Ordered.head_not_mem (h : Ordered U s) {i : ℕ} {call : UpdateCall S}
    (hcall : s.calls[i]? = some call) {e : JsString × IndexDefinition}
    {todo : List (JsString × IndexDefinition)} (htodo : call.todo = e :: todo) :
    e ∈ U.matching ∧ e.1 ∉ todo.map Prod.fst := by
  have hsuffix := h call (List.mem_of_getElem? hcall)
  rw [htodo] at hsuffix
  refine ⟨hsuffix.subset List.mem_cons_self, ?_⟩
  have hnodup := (nodup_matching U).sublist (hsuffix.sublist.map Prod.fst)
  rw [List.map_cons, List.nodup_cons] at hnodup
  exact hnodup.1

theorem matching_unique {e e' : JsString × IndexDefinition}
    (he : e ∈ U.matching) (he' : e' ∈ U.matching) (h : e.1 = e'.1) : e = e' :=
  List.inj_on_of_nodup_map (nodup_matching U) he he' h

theorem finished_set {i : ℕ} {call : UpdateCall S}
    {todo : List (JsString × IndexDefinition)}
    {stored : JsString → Option Value} (hcall : s.calls[i]? = some call)
    (indexName : JsString) (j : ℕ) :
    Finished ⟨stored, s.goOn i call todo⟩ indexName j ↔
      if j = i then indexName ∉ todo.map Prod.fst
      else s.Finished indexName j := by
  have hlt : i < s.calls.length := (List.getElem?_eq_some_iff.1 hcall).1
  rw [Finished, goOn]
  by_cases hj : j = i
  · subst hj
    rw [if_pos rfl, List.getElem?_set_self hlt]
    simp
  · rw [if_neg hj, List.getElem?_set_ne (Ne.symm hj), Finished]

/-- A call that goes on finishes with the index at hand only. -/
theorem Ordered.finished_goOn (h : Ordered U s) {i : ℕ} {call : UpdateCall S}
    (hcall : s.calls[i]? = some call) {e : JsString × IndexDefinition}
    {todo : List (JsString × IndexDefinition)} (htodo : call.todo = e :: todo)
    (stored : JsString → Option Value) (indexName : JsString) (j : ℕ) :
    Finished ⟨stored, s.goOn i call todo⟩ indexName j ↔
      (indexName = e.1 ∧ j = i) ∨ s.Finished indexName j := by
  rw [finished_set hcall]
  by_cases hj : j = i
  · subst hj
    rw [if_pos rfl]
    have hiff : s.Finished indexName j ↔
        indexName ∉ call.todo.map Prod.fst := by
      rw [Finished, hcall]
      simp
    rw [hiff, htodo, List.map_cons, List.mem_cons, not_or]
    constructor
    · intro hmem
      by_cases hname : indexName = e.1
      · exact Or.inl ⟨hname, rfl⟩
      · exact Or.inr ⟨hname, hmem⟩
    · rintro (⟨rfl, -⟩ | ⟨-, hmem⟩)
      · exact (h.head_not_mem hcall htodo).2
      · exact hmem
  · simp [hj]

/-- The snapshots of the calls stay. -/
theorem snapshot_goOn {i j : ℕ} {call call' : UpdateCall S}
    {todo : List (JsString × IndexDefinition)}
    (hcall : s.calls[i]? = some call)
    (hcall' : (s.goOn i call todo)[j]? = some call') :
    ∃ old, s.calls[j]? = some old ∧ old.snapshot = call'.snapshot := by
  rcases getElem?_set_cases hcall' with ⟨rfl, rfl⟩ | hold
  · exact ⟨call, hcall, rfl⟩
  · exact ⟨call', hold, rfl⟩

theorem exists_goOn {i j : ℕ} {call old : UpdateCall S}
    (todo : List (JsString × IndexDefinition))
    (hcall : s.calls[i]? = some call) (hold : s.calls[j]? = some old) :
    ∃ call', (s.goOn i call todo)[j]? = some call' ∧
      call'.snapshot = old.snapshot := by
  have hlt : i < s.calls.length := (List.getElem?_eq_some_iff.1 hcall).1
  by_cases hj : j = i
  · subst hj
    rw [hcall] at hold
    cases hold
    exact ⟨_, List.getElem?_set_self hlt, rfl⟩
  · exact ⟨old, by rw [goOn, List.getElem?_set_ne (Ne.symm hj), hold], rfl⟩

/-- Where a call finishes with an index, the latest fields are stored exactly if
they are those of the call or of the latest call after it that had
finished. -/
theorem Ordered.latestStored_goOn_iff (h : Ordered U s)
    (hlatest : LatestStored U s) {i : ℕ} {call : UpdateCall S}
    (hcall : s.calls[i]? = some call) {e : JsString × IndexDefinition}
    {todo : List (JsString × IndexDefinition)} (htodo : call.todo = e :: todo)
    (stored : JsString → Option Value)
    (hother : ∀ indexName, indexName ≠ e.1 →
      stored indexName = s.stored indexName) :
    LatestStored U ⟨stored, s.goOn i call todo⟩ ↔
      ((∀ j, i < j → ¬ s.Finished e.1 j) →
        (stored e.1).map Value.data =
          some (U.extract call.snapshot e.2).data) ∧
      ∀ j later, i < j → s.calls[j]? = some later → s.Finished e.1 j →
        (∀ k, j < k → ¬ s.Finished e.1 k) →
          (stored e.1).map Value.data =
            some (U.extract later.snapshot e.2).data := by
  obtain ⟨hmem, -⟩ := h.head_not_mem hcall htodo
  have hfinished := h.finished_goOn hcall htodo stored
  constructor
  · intro hnew
    constructor
    · intro hnone
      obtain ⟨call', hcall', hsnapshot⟩ := exists_goOn todo hcall hcall
      rw [← hsnapshot]
      refine hnew e hmem i call' hcall' ((hfinished _ _).2 (Or.inl ⟨rfl, rfl⟩))
        fun j hj hfin => ?_
      rcases (hfinished _ _).1 hfin with ⟨-, rfl⟩ | hold
      · exact hj.false
      · exact hnone j hj hold
    · intro j later hj hlater hfin hnone
      obtain ⟨call', hcall', hsnapshot⟩ := exists_goOn todo hcall hlater
      rw [← hsnapshot]
      refine hnew e hmem j call' hcall' ((hfinished _ _).2 (Or.inr hfin))
        fun k hk hfin' => ?_
      rcases (hfinished _ _).1 hfin' with ⟨-, rfl⟩ | hold
      · exact absurd hk (by omega)
      · exact hnone k hk hold
  · rintro ⟨hself, hlater⟩ e' he' j call' hcall' hfin hnone
    obtain ⟨old, hold, hsnapshot⟩ := snapshot_goOn hcall hcall'
    rw [← hsnapshot]
    have hnone' : ∀ k, j < k → ¬ s.Finished e'.1 k := fun k hk hk' =>
      hnone k hk ((hfinished _ _).2 (Or.inr hk'))
    by_cases hname : e'.1 = e.1
    · obtain rfl := matching_unique he' hmem hname
      rcases (hfinished _ _).1 hfin with ⟨-, rfl⟩ | hfin'
      · rw [hcall] at hold
        cases hold
        exact hself hnone'
      · have hle : ¬ j < i := fun hlt =>
          hnone i hlt ((hfinished _ _).2 (Or.inl ⟨rfl, rfl⟩))
        have hne : j ≠ i := by
          rintro rfl
          obtain ⟨c, hc, hnot⟩ := hfin'
          rw [hcall] at hc
          cases hc
          rw [htodo] at hnot
          exact hnot (by simp)
        exact hlater j old (by omega) hold hfin' hnone'
    · change (stored e'.1).map Value.data = _
      rw [hother _ hname]
      refine hlatest e' he' j old hold ?_ hnone'
      exact ((hfinished _ _).1 hfin).resolve_left fun hboth => hname hboth.1

/-- An event that leaves what is stored and what has been finished with keeps
the latest fields stored. -/
theorem LatestStored.congr {calls : List (UpdateCall S)}
    (hlatest : LatestStored U s)
    (hcalls : ∀ (i : ℕ) (call : UpdateCall S), calls[i]? = some call →
      ∀ e ∈ U.matching, e.1 ∉ call.todo.map Prod.fst →
        ∃ old : UpdateCall S, s.calls[i]? = some old ∧
          old.snapshot = call.snapshot ∧ old.todo = call.todo)
    (hkept : ∀ (i : ℕ) (old : UpdateCall S), s.calls[i]? = some old →
      ∃ call : UpdateCall S, calls[i]? = some call ∧
        call.todo = old.todo) :
    LatestStored U ⟨s.stored, calls⟩ := by
  intro e he i call hcall hfin hnone
  obtain ⟨call', hcall', hnot⟩ := hfin
  rw [hcall] at hcall'
  cases hcall'
  obtain ⟨old, hold, hsnapshot, htodo⟩ := hcalls i call hcall e he hnot
  rw [← hsnapshot]
  refine hlatest e he i old hold ⟨old, hold, by rwa [htodo]⟩ fun j hj hfin => ?_
  obtain ⟨later, hlater, hlaterNot⟩ := hfin
  obtain ⟨call', hcall', htodo'⟩ := hkept j later hlater
  exact hnone j hj ⟨call', hcall', by rwa [htodo']⟩

theorem LatestStored.start (hlatest : LatestStored U s) (snapshot : S) :
    LatestStored U (step U s (.start snapshot)) := by
  apply hlatest.congr
  · intro i call hcall e he hnot
    rcases getElem?_concat hcall with ⟨-, hold⟩ | ⟨-, rfl⟩
    · exact ⟨call, hold, rfl, rfl⟩
    · exact absurd (List.mem_map_of_mem he) hnot
  · intro i old hold
    have hlt : i < s.calls.length := (List.getElem?_eq_some_iff.1 hold).1
    exact ⟨old, by rw [List.getElem?_append_left hlt, hold], rfl⟩

theorem LatestStored.read (hlatest : LatestStored U s) {i : ℕ}
    {call : UpdateCall S} (hcall : s.calls[i]? = some call) :
    LatestStored U
      { s with calls := s.calls.set i { call with writing := true } } := by
  have hlt : i < s.calls.length := (List.getElem?_eq_some_iff.1 hcall).1
  apply hlatest.congr
  · intro j call' hcall' e _ _
    rcases getElem?_set_cases hcall' with ⟨rfl, rfl⟩ | hold
    · exact ⟨call, hcall, rfl, rfl⟩
    · exact ⟨call', hold, rfl, rfl⟩
  · intro j old hold
    by_cases hj : j = i
    · subst hj
      rw [hcall] at hold
      cases hold
      exact ⟨_, List.getElem?_set_self hlt, rfl⟩
    · exact ⟨old, by rw [List.getElem?_set_ne (Ne.symm hj), hold], rfl⟩

/-- What it means for the operation of a call to be in order. -/
theorem inOrder_advance_iff {i : ℕ} {call : UpdateCall S}
    (hcall : s.calls[i]? = some call) {e : JsString × IndexDefinition}
    {todo : List (JsString × IndexDefinition)}
    (htodo : call.todo = e :: todo) :
    InOrder U s (.advance i) ↔
      if call.writing then
        ∀ j later, i < j → s.calls[j]? = some later → s.Finished e.1 j →
          (∀ k, j < k → ¬ s.Finished e.1 k) →
            (U.extract call.snapshot e.2).data =
              (U.extract later.snapshot e.2).data
      else
        (∀ j, i < j → ¬ s.Finished e.1 j) → ∀ existing,
          s.stored e.1 = some existing →
            existing.fieldsEqual (U.extract call.snapshot e.2) = true →
              existing.data = (U.extract call.snapshot e.2).data := by
  constructor
  · intro hinOrder
    exact hinOrder call e.1 e.2 todo hcall htodo
  · intro hcond call' indexName definition todo' hcall' htodo'
    rw [hcall] at hcall'
    cases hcall'
    rw [htodo] at htodo'
    cases htodo'
    exact hcond

/-- A write keeps the latest fields stored exactly if it is in order. -/
theorem Ordered.latestStored_write_iff (h : Ordered U s)
    (hlatest : LatestStored U s) {i : ℕ} {call : UpdateCall S}
    (hcall : s.calls[i]? = some call) {e : JsString × IndexDefinition}
    {todo : List (JsString × IndexDefinition)} (htodo : call.todo = e :: todo)
    (hwriting : call.writing = true) :
    LatestStored U
        ⟨Function.update s.stored e.1 (some (U.extract call.snapshot e.2)),
          s.goOn i call todo⟩ ↔
      InOrder U s (.advance i) := by
  rw [inOrder_advance_iff hcall htodo, if_pos hwriting,
    h.latestStored_goOn_iff hlatest hcall htodo _ fun name hname =>
      Function.update_of_ne hname _ _]
  simp only [Function.update_self, Option.map_some, Option.some_inj,
    implies_true, true_and]

/-- A write that is skipped keeps the latest fields stored exactly if that is
in order. -/
theorem Ordered.latestStored_skip_iff (h : Ordered U s)
    (hlatest : LatestStored U s) {i : ℕ} {call : UpdateCall S}
    (hcall : s.calls[i]? = some call) {e : JsString × IndexDefinition}
    {todo : List (JsString × IndexDefinition)} (htodo : call.todo = e :: todo)
    (hwriting : call.writing = false) {existing : Value}
    (hexisting : s.stored e.1 = some existing)
    (hfields :
      existing.fieldsEqual (U.extract call.snapshot e.2) = true) :
    LatestStored U { s with calls := s.goOn i call todo } ↔
      InOrder U s (.advance i) := by
  rw [inOrder_advance_iff hcall htodo, hwriting,
    if_neg Bool.false_ne_true,
    h.latestStored_goOn_iff hlatest hcall htodo s.stored fun _ _ => rfl]
  simp only [hexisting, Option.map_some, Option.some_inj]
  constructor
  · rintro ⟨hself, -⟩ hnone existing' rfl -
    exact hself hnone
  · intro hcond
    refine ⟨fun hnone => hcond hnone existing rfl hfields, ?_⟩
    intro j later _ hlater hfin hnone
    have hstored := hlatest e (h.head_not_mem hcall htodo).1 j later hlater hfin
      hnone
    rwa [hexisting, Option.map_some, Option.some_inj] at hstored

/-- The latest fields stay stored exactly if the event is in order. -/
theorem Ordered.latestStored_step_iff (h : Ordered U s)
    (hlatest : LatestStored U s) (event : UpdateEvent S) :
    LatestStored U (step U s event) ↔ InOrder U s event := by
  cases event with
  | start snapshot => exact iff_of_true (hlatest.start snapshot) trivial
  | advance i =>
      rcases hcall : s.calls[i]? with _ | call
      · simp only [step, hcall]
        refine iff_of_true hlatest fun call _ _ _ hcall' => ?_
        rw [hcall] at hcall'
        cases hcall'
      simp only [step, hcall, advance]
      rcases htodo : call.todo with _ | ⟨e, todo⟩
      · refine iff_of_true hlatest fun call' _ _ _ hcall' htodo' => ?_
        rw [hcall] at hcall'
        cases hcall'
        rw [htodo] at htodo'
        cases htodo'
      by_cases hwriting : call.writing = true
      · simp only [if_pos hwriting]
        exact h.latestStored_write_iff hlatest hcall htodo hwriting
      simp only [if_neg hwriting]
      by_cases hequal : (s.stored e.1).any
          (Value.fieldsEqual · (U.extract call.snapshot e.2)) = true
      · obtain ⟨existing, hexisting, hfields⟩ :=
          (Option.any_eq_true _ _).1 hequal
        simp only [if_pos hequal]
        exact h.latestStored_skip_iff hlatest hcall htodo
          (Bool.eq_false_iff.2 hwriting) hexisting hfields
      · simp only [if_neg hequal]
        rw [inOrder_advance_iff hcall htodo, if_neg hwriting]
        refine iff_of_true (by simpa only [htodo] using hlatest.read hcall) ?_
        intro _ existing hexisting hfields
        rw [hexisting] at hequal
        exact absurd hfields (by simpa using hequal)

theorem Ordered.set (h : Ordered U s) {i : ℕ} {call : UpdateCall S}
    (hcall : s.calls[i]? = some call) {call' : UpdateCall S}
    (htodo : call'.todo <:+ call.todo) (stored : JsString → Option Value) :
    Ordered U ⟨stored, s.calls.set i call'⟩ := by
  intro c hc
  rcases List.mem_or_eq_of_mem_set hc with hc | rfl
  · exact h c hc
  · exact htodo.trans (h call (List.mem_of_getElem? hcall))

/-- The calls go on working through the matching indexes. -/
theorem Ordered.step (h : Ordered U s) (event : UpdateEvent S) :
    Ordered U (IndexUpdates.step U s event) := by
  cases event with
  | start snapshot =>
      intro call hcall
      rcases List.mem_append.1 hcall with hcall | hcall
      · exact h call hcall
      · rw [List.mem_singleton.1 hcall]
  | advance i =>
      rcases hcall : s.calls[i]? with _ | call
      · simpa only [IndexUpdates.step, hcall] using h
      simp only [IndexUpdates.step, hcall, advance]
      rcases htodo : call.todo with _ | ⟨e, todo⟩
      · exact h
      have hsuffix : todo <:+ call.todo := htodo ▸ List.suffix_cons e todo
      dsimp only
      split
      · exact h.set hcall hsuffix _
      split
      · exact h.set hcall hsuffix _
      · exact h.set hcall (htodo ▸ List.suffix_rfl) _

/-- In every state of a run the latest fields are stored if and only if all
storage operations are in order. -/
theorem latestStored_iff_inOrder (U : UpdateSetting S)
    (stored : JsString → Option Value) (events : List (UpdateEvent S)) :
    (∀ n, LatestStored U
        (exec (IndexUpdates.step U) (idle stored) (events.take n))) ↔
      Guarded (IndexUpdates.step U) (InOrder U) (idle stored) events := by
  have hgood : ∀ s : IndexUpdates S, Ordered U s ∧ LatestStored U s →
      LatestStored U s := fun s hs => hs.2
  have hstep : ∀ (s : IndexUpdates S) (event : UpdateEvent S),
      Ordered U s ∧ LatestStored U s →
        (LatestStored U (IndexUpdates.step U s event) ↔ InOrder U s event) :=
    fun s event hs => hs.1.latestStored_step_iff hs.2 event
  have hkeep : ∀ (s : IndexUpdates S) (event : UpdateEvent S),
      Ordered U s ∧ LatestStored U s → InOrder U s event →
        Ordered U (IndexUpdates.step U s event) ∧
          LatestStored U (IndexUpdates.step U s event) :=
    fun s event hs hinOrder => ⟨hs.1.step event, (hstep s event hs).2 hinOrder⟩
  refine forall_exec_take_iff_guarded hgood hstep hkeep events (idle stored)
    ⟨fun call hcall => ?_, fun e _ i call hcall => ?_⟩
  · cases hcall
  · cases hcall

/-- When all calls have finished, the index holds the fields of the last
one. -/
theorem LatestStored.of_allFinished (hlatest : LatestStored U s)
    (hfinished : s.AllFinished) {last : UpdateCall S}
    (hlast : s.calls.getLast? = some last) {e : JsString × IndexDefinition}
    (he : e ∈ U.matching) :
    (s.stored e.1).map Value.data =
      some (U.extract last.snapshot e.2).data := by
  rw [List.getLast?_eq_getElem?] at hlast
  have htodo := hfinished last (List.mem_of_getElem? hlast)
  refine hlatest e he _ last hlast ⟨last, hlast, by simp [htodo]⟩ ?_
  rintro j hj ⟨call, hcall, -⟩
  have hlt := (List.getElem?_eq_some_iff.1 hcall).1
  omega

/-- When all calls of a run whose storage operations are in order have
finished, every matching index holds the fields that the last call
extracted. -/
theorem last_update_stored (U : UpdateSetting S)
    (stored : JsString → Option Value) (events : List (UpdateEvent S))
    (hinOrder : Guarded (IndexUpdates.step U) (InOrder U) (idle stored) events)
    (n : ℕ)
    (hfinished : (exec (IndexUpdates.step U) (idle stored)
      (events.take n)).AllFinished)
    (last : UpdateCall S)
    (hlast : (exec (IndexUpdates.step U) (idle stored)
      (events.take n)).calls.getLast? = some last) :
    ∀ e ∈ U.matching,
      ((exec (IndexUpdates.step U) (idle stored)
        (events.take n)).stored e.1).map Value.data =
          some (U.extract last.snapshot e.2).data := by
  intro e he
  have hlatest := (latestStored_iff_inOrder U stored events).2 hinOrder n
  exact hlatest.of_allFinished hfinished hlast he

end Latest

/-! ## Two calls -/

/-- One index over all documents; a snapshot is a number. -/
def countIndex : UpdateSetting ℕ where
  definitions := InsertionMap.empty.set [0] ⟨[], [[1]]⟩
  documentPath := [2]
  extract n _ := .obj 0 [([1], .num (.finite n))]

/-- The definition of the index. -/
def countEntry : JsString × IndexDefinition := ([0], ⟨[], [[1]]⟩)

/-- Two calls that both read before they write, in the order of their start. -/
def overlappingInOrder : List (UpdateEvent ℕ) :=
  [.start 1, .start 2, .advance 0, .advance 1, .advance 0, .advance 1]

theorem overlappingInOrder_inOrder :
    Guarded (step countIndex) (InOrder countIndex) (idle fun _ => none)
      overlappingInOrder := by
  refine ⟨trivial, trivial, ?_, ?_, ?_, ?_, trivial⟩
  · refine (@inOrder_advance_iff _ _ _ 0 ⟨1, countIndex.matching, false⟩ rfl
      countEntry [] rfl).2 ?_
    intro _ existing hexisting
    cases hexisting
  · refine (@inOrder_advance_iff _ _ _ 1 ⟨2, countIndex.matching, false⟩ rfl
      countEntry [] rfl).2 ?_
    intro _ existing hexisting
    cases hexisting
  · refine (@inOrder_advance_iff _ _ _ 0 ⟨1, countIndex.matching, true⟩ rfl
      countEntry [] rfl).2 ?_
    rintro (_ | _ | j) later hj hlater ⟨call, hcall, hnot⟩
    · cases hj
    · cases hcall
      exact absurd (by decide) hnot
    · cases hlater
  · refine (@inOrder_advance_iff _ _ _ 1 ⟨2, countIndex.matching, true⟩ rfl
      countEntry [] rfl).2 ?_
    rintro (_ | _ | j) later hj hlater
    · cases hj
    · exact absurd hj (lt_irrefl 1)
    · cases hlater

/-- The fields of the second call are stored. -/
theorem last_update_stored_inOrder :
    ((exec (step countIndex) (idle fun _ => none)
        (overlappingInOrder.take 6)).stored [0]).map Value.data =
      some (countIndex.extract 2 countEntry.2).data :=
  last_update_stored countIndex (fun _ => none) overlappingInOrder
    overlappingInOrder_inOrder 6 (fun _ hcall => by
      rcases List.mem_pair.1 hcall with rfl | rfl
      · rfl
      · rfl) ⟨2, [], false⟩ rfl countEntry (List.mem_singleton.2 rfl)

/-- The second call finds its own fields stored and writes nothing, and then
the first call writes. -/
def skippedThenOverwritten : List (UpdateEvent ℕ) :=
  [.start 1, .start 2, .advance 0, .advance 1, .advance 0]

/-- The fields of the last call are lost. -/
theorem last_update_lost :
    ¬ ∀ (U : UpdateSetting ℕ) (stored : JsString → Option Value)
      (events : List (UpdateEvent ℕ)) (last : UpdateCall ℕ),
      (exec (step U) (idle stored) events).AllFinished →
      (exec (step U) (idle stored) events).calls.getLast? = some last →
      ∀ e ∈ U.matching,
        ((exec (step U) (idle stored) events).stored e.1).map Value.data =
          some (U.extract last.snapshot e.2).data := by
  intro h
  have hstored := h countIndex
    (fun _ => some (countIndex.extract 2 countEntry.2))
    skippedThenOverwritten ⟨2, [], false⟩ (fun _ hcall => by
      rcases List.mem_pair.1 hcall with rfl | rfl
      · rfl
      · rfl) rfl countEntry (List.mem_singleton.2 rfl)
  have hfirst : (exec (step countIndex)
      (idle fun _ => some (countIndex.extract 2 countEntry.2))
      skippedThenOverwritten).stored [0] =
        some (countIndex.extract 1 countEntry.2) := rfl
  change Option.map Value.data ((exec (step countIndex)
      (idle fun _ => some (countIndex.extract 2 countEntry.2))
      skippedThenOverwritten).stored [0]) = _ at hstored
  rw [hfirst] at hstored
  revert hstored
  simp [countIndex, Value.data, Value.dataMembers]

end IndexUpdates

end Collabswarm.Index
