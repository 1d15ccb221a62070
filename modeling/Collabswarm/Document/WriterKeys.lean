import Collabswarm.Support.Lists
import Collabswarm.Support.Transition

/-!
# The cache of writer keys

`_getWriterKeys` of `collabswarm-document.ts` and the mutations of the writer
ACL.  A call of `_getWriterKeys` awaits `users()` in a loop; `_addWriter` and
`_removeWriter` await the ACL between two invalidations, and `_mergeWriters` is
synchronous.  The ACL may change whenever a mutation runs, and `users()` reads
it at some moment before it resolves.
-/

namespace Collabswarm

/-- A mutation of the writer ACL that awaits. -/
inductive WriterMutation (K : Type) where
  | addWriter (publicKey : K)
  | removeWriter (publicKey : K)
deriving DecidableEq

/-- A call of `_getWriterKeys`: it awaits `users()`, which may have read the
ACL, or has returned. -/
inductive GetWriterKeys (K : Type) where
  | fetching (versionAtStart : ℕ) (fetched : Option (List K))
  | returned (keys : List K)
deriving DecidableEq

/-- The writer ACL of a document, its cache, the mutations that run and all
calls of `_getWriterKeys`. -/
structure WriterKeys (K : Type) where
  writers : List K
  cachedWriterKeys : Option (List K)
  writerKeysVersion : ℕ
  writerMutationsInFlight : ℕ
  running : List (WriterMutation K)
  calls : List (GetWriterKeys K)

/-- What happens between two awaits. -/
inductive WriterKeysEvent (K : Type) where
  | getWriterKeys
  | usersReads (call : ℕ)
  | resume (call : ℕ)
  | startMutation (mutation : WriterMutation K)
  | aclChanges (writers : List K)
  | endMutation (mutation : ℕ)
  | mergeWriters (writers : List K)

namespace WriterKeys

variable {K : Type}

/-- A document with these writers. -/
def new (writers : List K) : WriterKeys K := ⟨writers, none, 0, 0, [], []⟩

/-- `_invalidateWriterKeyCache`. -/
def invalidateWriterKeyCache (s : WriterKeys K) : WriterKeys K :=
  { s with
    cachedWriterKeys := none
    writerKeysVersion := s.writerKeysVersion + 1 }

/-- The loop of `_getWriterKeys` up to the await. -/
def enterLoop (s : WriterKeys K) : GetWriterKeys K :=
  match s.writerMutationsInFlight, s.cachedWriterKeys with
  | 0, some keys => .returned keys
  | _, _ => .fetching s.writerKeysVersion none

/-- The loop of `_getWriterKeys` from the await on. -/
def afterAwait (versionAtStart : ℕ) (fetched : List K) (s : WriterKeys K) :
    WriterKeys K × GetWriterKeys K :=
  if s.writerKeysVersion = versionAtStart ∧ s.writerMutationsInFlight = 0 then
    ({ s with cachedWriterKeys := some fetched }, .returned fetched)
  else if s.writerKeysVersion ≠ versionAtStart then (s, s.enterLoop)
  else (s, .returned fetched)

/-- `_runWriterMutation` up to the await of `op()`. -/
def startMutation (mutation : WriterMutation K) (s : WriterKeys K) :
    WriterKeys K :=
  invalidateWriterKeyCache { s with
    writerMutationsInFlight := s.writerMutationsInFlight + 1
    running := s.running ++ [mutation] }

/-- The `finally` of `_runWriterMutation`. -/
def endMutation (mutation : ℕ) (s : WriterKeys K) : WriterKeys K :=
  if mutation < s.running.length then
    invalidateWriterKeyCache { s with
      writerMutationsInFlight := s.writerMutationsInFlight - 1
      running := s.running.eraseIdx mutation }
  else s

/-- `_mergeWriters`, which leaves these writers. -/
def mergeWriters (writers : List K) (s : WriterKeys K) : WriterKeys K :=
  let s := invalidateWriterKeyCache { s with
    writerMutationsInFlight := s.writerMutationsInFlight + 1 }
  let s := { s with writers := writers }
  invalidateWriterKeyCache { s with
    writerMutationsInFlight := s.writerMutationsInFlight - 1 }

/-- One event. -/
def step (s : WriterKeys K) : WriterKeysEvent K → WriterKeys K
  | .getWriterKeys => { s with calls := s.calls ++ [s.enterLoop] }
  | .usersReads i =>
      match s.calls[i]? with
      | some (.fetching version none) =>
          { s with calls := s.calls.set i (.fetching version s.writers) }
      | _ => s
  | .resume i =>
      match s.calls[i]? with
      | some (.fetching version (some fetched)) =>
          let after := s.afterAwait version fetched
          { after.1 with calls := s.calls.set i after.2 }
      | _ => s
  | .startMutation mutation => s.startMutation mutation
  | .aclChanges writers =>
      if s.running = [] then s else { s with writers := writers }
  | .endMutation i => s.endMutation i
  | .mergeWriters writers => s.mergeWriters writers

/-- A document with these writers after a list of events. -/
def run (writers : List K) (events : List (WriterKeysEvent K)) :
    WriterKeys K :=
  exec step (new writers) events

/-! ## Coherence -/

/-- The counter counts the running mutations; what is cached, and what a call
that saw no invalidation fetched, is the content of the ACL while no mutation
runs. -/
structure Coherent (s : WriterKeys K) : Prop where
  inFlight : s.writerMutationsInFlight = s.running.length
  cached : ∀ keys, s.cachedWriterKeys = some keys →
    s.running = [] ∧ s.writers = keys
  version : ∀ (i version : ℕ) fetched,
    s.calls[i]? = some (.fetching version fetched) →
    version ≤ s.writerKeysVersion
  current : ∀ (i : ℕ) keys,
    s.calls[i]? = some (.fetching s.writerKeysVersion (some keys)) →
    s.running = [] → s.writers = keys

theorem new_coherent (writers : List K) : (new writers).Coherent where
  inFlight := rfl
  cached := by simp [new]
  version := by simp [new]
  current := by simp [new]

theorem enterLoop_cases (s : WriterKeys K) :
    (∃ keys, s.enterLoop = .returned keys ∧ s.cachedWriterKeys = some keys) ∨
      s.enterLoop = .fetching s.writerKeysVersion none := by
  unfold enterLoop
  split
  · rename_i keys _ hcached
    exact Or.inl ⟨keys, rfl, hcached⟩
  · exact Or.inr rfl

/-- An invalidation keeps coherence whatever else it does to the ACL and the
running mutations: no call has seen the new version. -/
theorem Coherent.invalidate {s after : WriterKeys K} (h : s.Coherent)
    (hinFlight : after.writerMutationsInFlight = after.running.length)
    (hcached : after.cachedWriterKeys = none)
    (hversion : s.writerKeysVersion < after.writerKeysVersion)
    (hcalls : after.calls = s.calls) : after.Coherent where
  inFlight := hinFlight
  cached := by simp [hcached]
  version := by
    intro i version fetched hget
    rw [hcalls] at hget
    exact (h.version i version fetched hget).trans hversion.le
  current := by
    intro i keys hget
    rw [hcalls] at hget
    exact absurd (h.version i _ _ hget) (not_le.2 hversion)

/-- Replacing a call keeps coherence if the new call is coherent. -/
theorem Coherent.setCall {s : WriterKeys K} (h : s.Coherent) (i : ℕ)
    (call : GetWriterKeys K)
    (hversion : ∀ version fetched, call = .fetching version fetched →
      version ≤ s.writerKeysVersion)
    (hcurrent : ∀ keys, call = .fetching s.writerKeysVersion (some keys) →
      s.running = [] → s.writers = keys) :
    { s with calls := s.calls.set i call }.Coherent where
  inFlight := h.inFlight
  cached := h.cached
  version := by
    intro j version fetched hget
    rcases getElem?_set_cases hget with ⟨-, rfl⟩ | hold
    · exact hversion version fetched rfl
    · exact h.version j version fetched hold
  current := by
    intro j keys hget
    rcases getElem?_set_cases hget with ⟨-, hcall⟩ | hold
    · exact hcurrent keys hcall.symm
    · exact h.current j keys hold

theorem Coherent.getWriterKeys {s : WriterKeys K} (h : s.Coherent) :
    (s.step .getWriterKeys).Coherent where
  inFlight := h.inFlight
  cached := h.cached
  version := by
    intro i version fetched hget
    rcases getElem?_concat hget with ⟨-, hold⟩ | ⟨-, hnew⟩
    · exact h.version i version fetched hold
    · rcases s.enterLoop_cases with ⟨keys, heq, -⟩ | heq
      · rw [heq] at hnew
        cases hnew
      · rw [heq] at hnew
        cases hnew
        exact le_rfl
  current := by
    intro i keys hget
    rcases getElem?_concat hget with ⟨-, hold⟩ | ⟨-, hnew⟩
    · exact h.current i keys hold
    · rcases s.enterLoop_cases with ⟨keys', heq, -⟩ | heq
      · rw [heq] at hnew
        cases hnew
      · rw [heq] at hnew
        cases hnew

theorem Coherent.afterAwait {s : WriterKeys K} (h : s.Coherent) {i version : ℕ}
    {fetched : List K}
    (hcall : s.calls[i]? = some (.fetching version (some fetched))) :
    { (s.afterAwait version fetched).1 with
      calls := s.calls.set i (s.afterAwait version fetched).2 }.Coherent := by
  unfold WriterKeys.afterAwait
  split
  · rename_i hcommit
    have hidle : s.running = [] := by
      rw [← List.length_eq_zero_iff, ← h.inFlight, hcommit.2]
    have hwriters : s.writers = fetched := by
      apply h.current i fetched _ hidle
      rw [hcall, hcommit.1]
    have hset := h.setCall i (.returned fetched) (by simp) (by simp)
    exact {
      inFlight := hset.inFlight
      cached := by
        intro keys hkeys
        cases hkeys
        exact ⟨hidle, hwriters⟩
      version := hset.version
      current := hset.current }
  split
  · apply h.setCall
    · intro version' fetched' heq
      rcases s.enterLoop_cases with ⟨keys, hloop, -⟩ | hloop
      · rw [hloop] at heq
        cases heq
      · rw [hloop] at heq
        cases heq
        exact le_rfl
    · intro keys heq
      rcases s.enterLoop_cases with ⟨keys', hloop, -⟩ | hloop
      · rw [hloop] at heq
        cases heq
      · rw [hloop] at heq
        cases heq
  · exact h.setCall i (.returned fetched) (by simp) (by simp)

theorem Coherent.step {s : WriterKeys K} (h : s.Coherent)
    (event : WriterKeysEvent K) : (s.step event).Coherent := by
  cases event with
  | getWriterKeys => exact h.getWriterKeys
  | usersReads i =>
      simp only [WriterKeys.step]
      split
      · rename_i version hcall
        apply h.setCall
        · intro version' fetched heq
          cases heq
          exact h.version i version none hcall
        · intro keys heq _
          cases heq
          rfl
      · exact h
  | resume i =>
      simp only [WriterKeys.step]
      split
      · rename_i version fetched hcall
        exact h.afterAwait hcall
      · exact h
  | startMutation mutation =>
      refine Coherent.invalidate h ?_ rfl (Nat.lt_succ_self _) rfl
      simp [WriterKeys.step, startMutation, invalidateWriterKeyCache,
        h.inFlight]
  | aclChanges writers =>
      simp only [WriterKeys.step]
      split
      · exact h
      · rename_i hrunning
        refine ⟨h.inFlight, ?_, h.version, ?_⟩
        · intro keys hcached
          exact absurd (h.cached keys hcached).1 hrunning
        · intro i keys _ hidle
          exact absurd hidle hrunning
  | endMutation i =>
      simp only [WriterKeys.step, endMutation]
      split
      · rename_i hlt
        refine Coherent.invalidate h ?_ rfl (Nat.lt_succ_self _) rfl
        simp only [invalidateWriterKeyCache, h.inFlight]
        rw [List.length_eraseIdx_of_lt hlt]
      · exact h
  | mergeWriters writers =>
      refine Coherent.invalidate h ?_ rfl ?_ rfl
      · simp [WriterKeys.step, mergeWriters, invalidateWriterKeyCache,
          h.inFlight]
      · simp [WriterKeys.step, mergeWriters, invalidateWriterKeyCache]

theorem run_coherent (writers : List K) (events : List (WriterKeysEvent K)) :
    (run writers events).Coherent :=
  exec_invariant_of_forall (fun _ event h => h.step event) events
    (new_coherent writers)

/-! ## What a call returns -/

/-- Call `i` had started at a moment at which the ACL held these keys. -/
def HeldSince (writers : List K) (events : List (WriterKeysEvent K)) (i : ℕ)
    (keys : List K) : Prop :=
  ∃ before after, events = before ++ after ∧
    i < (run writers before).calls.length ∧
    (run writers before).writers = keys

theorem HeldSince.concat {writers : List K}
    {events : List (WriterKeysEvent K)} {i : ℕ} {keys : List K}
    (h : HeldSince writers events i keys) (event : WriterKeysEvent K) :
    HeldSince writers (events ++ [event]) i keys := by
  obtain ⟨before, after, rfl, hstarted, hkeys⟩ := h
  exact ⟨before, after ++ [event], by simp, hstarted, hkeys⟩

theorem HeldSince.now {writers : List K} {events : List (WriterKeysEvent K)}
    {i : ℕ} (hstarted : i < (run writers events).calls.length) :
    HeldSince writers events i (run writers events).writers :=
  ⟨events, [], by simp, hstarted, rfl⟩

theorem run_concat (writers : List K) (events : List (WriterKeysEvent K))
    (event : WriterKeysEvent K) :
    run writers (events ++ [event]) = (run writers events).step event := by
  rw [run, exec_append]
  rfl

/-- A call of `_getWriterKeys` has fetched or returned these keys. -/
def Obtained (keys : List K) (call : GetWriterKeys K) : Prop :=
  (∃ version, call = .fetching version (some keys)) ∨ call = .returned keys

/-- Where a call has obtained keys by a step, it had obtained them before, or
the ACL holds them now. -/
theorem Coherent.obtained {s : WriterKeys K} (h : s.Coherent)
    (event : WriterKeysEvent K) {i : ℕ} {call : GetWriterKeys K}
    {keys : List K} (hcall : (s.step event).calls[i]? = some call)
    (hkeys : Obtained keys call) :
    (∃ old, s.calls[i]? = some old ∧ Obtained keys old) ∨
      (s.step event).writers = keys := by
  have hloop : Obtained keys s.enterLoop → s.writers = keys := by
    intro hobtained
    rcases s.enterLoop_cases with ⟨keys', heq, hcached⟩ | heq
    · rw [heq] at hobtained
      rcases hobtained with ⟨version, hfetching⟩ | hreturned
      · cases hfetching
      · cases hreturned
        exact (h.cached keys hcached).2
    · rw [heq] at hobtained
      rcases hobtained with ⟨version, hfetching⟩ | hreturned
      · cases hfetching
      · cases hreturned
  cases event with
  | getWriterKeys =>
      rcases getElem?_concat hcall with ⟨-, hold⟩ | ⟨-, rfl⟩
      · exact Or.inl ⟨call, hold, hkeys⟩
      · exact Or.inr (hloop hkeys)
  | usersReads j =>
      simp only [WriterKeys.step] at hcall ⊢
      split at hcall
      · rename_i version hfetching
        rcases getElem?_set_cases hcall with ⟨-, rfl⟩ | hold
        · right
          rcases hkeys with ⟨version', heq⟩ | heq
          · cases heq
            rfl
          · cases heq
        · exact Or.inl ⟨call, hold, hkeys⟩
      · exact Or.inl ⟨call, hcall, hkeys⟩
  | resume j =>
      simp only [WriterKeys.step] at hcall ⊢
      split at hcall
      · rename_i version fetched hfetching
        rcases getElem?_set_cases hcall with ⟨rfl, rfl⟩ | hold
        · unfold WriterKeys.afterAwait at hkeys ⊢
          have hreturned : Obtained keys (.returned fetched) →
              ∃ old, s.calls[j]? = some old ∧ Obtained keys old := by
            rintro (⟨version', heq⟩ | heq)
            · cases heq
            · cases heq
              exact ⟨_, hfetching, Or.inl ⟨version, rfl⟩⟩
          split at hkeys
          · exact Or.inl (hreturned hkeys)
          split at hkeys
          · rename_i hcommit hadvanced
            right
            rw [if_neg hcommit, if_pos hadvanced]
            exact hloop hkeys
          · exact Or.inl (hreturned hkeys)
        · exact Or.inl ⟨call, hold, hkeys⟩
      · exact Or.inl ⟨call, hcall, hkeys⟩
  | startMutation mutation => exact Or.inl ⟨call, hcall, hkeys⟩
  | aclChanges writers =>
      simp only [WriterKeys.step] at hcall
      split at hcall
      · exact Or.inl ⟨call, hcall, hkeys⟩
      · exact Or.inl ⟨call, hcall, hkeys⟩
  | endMutation j =>
      simp only [WriterKeys.step, endMutation] at hcall
      split at hcall
      · exact Or.inl ⟨call, hcall, hkeys⟩
      · exact Or.inl ⟨call, hcall, hkeys⟩
  | mergeWriters writers => exact Or.inl ⟨call, hcall, hkeys⟩

/-- Whatever a call has obtained, the ACL held since the call started. -/
theorem heldSince_of_obtained (writers : List K)
    (events : List (WriterKeysEvent K)) :
    ∀ (i : ℕ) (call : GetWriterKeys K) (keys : List K),
      (run writers events).calls[i]? = some call → Obtained keys call →
      HeldSince writers events i keys := by
  induction events using List.reverseRecOn with
  | nil =>
      intro i call keys hcall
      cases hcall
  | append_singleton events event ih =>
      intro i call keys hcall hkeys
      have hstarted := (List.getElem?_eq_some_iff.1 hcall).1
      have hstep := hcall
      rw [run_concat] at hstep
      rcases (run_coherent writers events).obtained event hstep hkeys with
        ⟨old, hold, hobtained⟩ | hnow
      · exact (ih i old keys hold hobtained).concat event
      · rw [← run_concat] at hnow
        rw [← hnow]
        exact HeldSince.now hstarted

theorem length_calls_step (s : WriterKeys K) (event : WriterKeysEvent K) :
    s.calls.length ≤ (s.step event).calls.length := by
  cases event with
  | getWriterKeys => simp [step]
  | usersReads j =>
      simp only [step]
      split
      · simp
      · exact le_rfl
  | resume j =>
      simp only [step]
      split
      · simp
      · exact le_rfl
  | startMutation mutation => exact le_rfl
  | aclChanges writers =>
      simp only [step]
      split
      · exact le_rfl
      · exact le_rfl
  | endMutation j =>
      simp only [step, endMutation]
      split
      · exact le_rfl
      · exact le_rfl
  | mergeWriters writers => exact le_rfl

theorem length_calls_run (writers : List K)
    (events later : List (WriterKeysEvent K)) :
    (run writers events).calls.length ≤
      (run writers (events ++ later)).calls.length := by
  induction later using List.reverseRecOn with
  | nil => simp
  | append_singleton later event ih =>
      rw [← List.append_assoc, run_concat]
      exact ih.trans (length_calls_step _ event)

/-- What a call returns was the content of the ACL after any moment before its
start. -/
theorem HeldSince.after {writers : List K}
    {past later : List (WriterKeysEvent K)} {i : ℕ} {keys : List K}
    (h : HeldSince writers (past ++ later) i keys)
    (hnew : (run writers past).calls.length ≤ i) :
    ∃ since rest, later = since ++ rest ∧
      (run writers (past ++ since)).writers = keys := by
  obtain ⟨before, after, heq, hstarted, hkeys⟩ := h
  rcases List.append_eq_append_iff.1 heq with
    ⟨since, rfl, hlater⟩ | ⟨since, rfl, -⟩
  · exact ⟨since, after, hlater, hkeys⟩
  · have hle := length_calls_run writers before since
    omega

/-! ## A call returns -/

/-- One fetch of a call: it returns, or an invalidation was seen and the call
starts to fetch again. -/
theorem exec_fetch {s : WriterKeys K} {i version : ℕ}
    {fetched : Option (List K)}
    (hcall : s.calls[i]? = some (.fetching version fetched)) :
    (exec step s [.usersReads i, .resume i]).writerKeysVersion =
        s.writerKeysVersion ∧
      ((∃ keys, (exec step s [.usersReads i, .resume i]).calls[i]? =
          some (.returned keys)) ∨
        version ≠ s.writerKeysVersion ∧
          (exec step s [.usersReads i, .resume i]).calls[i]? =
            some (.fetching s.writerKeysVersion none)) := by
  have hlt := (List.getElem?_eq_some_iff.1 hcall).1
  obtain ⟨keys, hread, hversion, hlength⟩ : ∃ keys,
      (s.step (.usersReads i)).calls[i]? =
        some (.fetching version (some keys)) ∧
      (s.step (.usersReads i)).writerKeysVersion = s.writerKeysVersion ∧
      (s.step (.usersReads i)).calls.length = s.calls.length := by
    cases fetched with
    | none =>
        refine ⟨s.writers, ?_, ?_, ?_⟩
        · simp only [step, hcall]
          exact List.getElem?_set_self hlt
        · simp [step, hcall]
        · simp [step, hcall]
    | some keys =>
        refine ⟨keys, ?_, ?_, ?_⟩
        · simp [step, hcall]
        · simp [step, hcall]
        · simp [step, hcall]
  simp only [exec_cons, exec_nil]
  generalize s.step (.usersReads i) = t at hread hversion hlength
  simp only [step, hread]
  rw [← hlength] at hlt
  rw [List.getElem?_set_self hlt, ← hversion]
  unfold afterAwait
  split
  · exact ⟨rfl, Or.inl ⟨keys, rfl⟩⟩
  split
  · rename_i hadvanced
    refine ⟨rfl, ?_⟩
    rcases t.enterLoop_cases with ⟨keys', heq, -⟩ | heq
    · exact Or.inl ⟨keys', congrArg some heq⟩
    · exact Or.inr ⟨Ne.symm hadvanced, congrArg some heq⟩
  · exact ⟨rfl, Or.inl ⟨keys, rfl⟩⟩

theorem exec_returned {s : WriterKeys K} {i : ℕ} {keys : List K}
    (hcall : s.calls[i]? = some (.returned keys)) :
    exec step s [.usersReads i, .resume i] = s := by
  simp [step, hcall]

/-- While nothing else happens, a call returns after two fetches. -/
theorem exists_returned {s : WriterKeys K} {i : ℕ} (hi : i < s.calls.length) :
    ∃ keys, (exec step s [.usersReads i, .resume i, .usersReads i,
      .resume i]).calls[i]? = some (.returned keys) := by
  have hsplit : exec step s [.usersReads i, .resume i, .usersReads i,
      .resume i] = exec step (exec step s [.usersReads i, .resume i])
        [.usersReads i, .resume i] := rfl
  have hreturned : ∀ {t : WriterKeys K} {keys : List K},
      t.calls[i]? = some (.returned keys) →
      ∃ keys, (exec step t [.usersReads i, .resume i]).calls[i]? =
        some (.returned keys) := by
    intro t keys hcall
    rw [exec_returned hcall]
    exact ⟨keys, hcall⟩
  rw [hsplit]
  rcases hcall : s.calls[i] with ⟨version, fetched⟩ | keys
  · have hget : s.calls[i]? = some (.fetching version fetched) := by
      rw [List.getElem?_eq_getElem hi, hcall]
    obtain ⟨hversion, ⟨keys, hkeys⟩ | ⟨-, hagain⟩⟩ := exec_fetch hget
    · exact hreturned hkeys
    · obtain ⟨-, hkeys | ⟨hne, -⟩⟩ := exec_fetch hagain
      · exact hkeys
      · exact absurd hversion.symm hne
  · have hget : s.calls[i]? = some (.returned keys) := by
      rw [List.getElem?_eq_getElem hi, hcall]
    rw [exec_returned hget]
    exact hreturned hget

/-- The call `i` returns these keys by this event. -/
def ReturnsBy (writers : List K) (events : List (WriterKeysEvent K))
    (event : WriterKeysEvent K) (i : ℕ) (keys : List K) : Prop :=
  (∀ keys', (run writers events).calls[i]? ≠ some (.returned keys')) ∧
    (run writers (events ++ [event])).calls[i]? = some (.returned keys)

/-- The last event of the list completes a `_removeWriter` call for the key,
which the ACL then no longer holds. -/
def RemovesBy (writers : List K) (events : List (WriterKeysEvent K))
    (removed : K) : Prop :=
  ∃ before j, events = before ++ [.endMutation j] ∧
    (run writers before).running[j]? = some (.removeWriter removed) ∧
    removed ∉ (run writers events).writers

/-- One of the later events puts the key into the ACL. -/
def Readds (writers : List K) (events later : List (WriterKeysEvent K))
    (key : K) : Prop :=
  ∃ before event after, later = before ++ event :: after ∧
    key ∉ (run writers (events ++ before)).writers ∧
    key ∈ (run writers (events ++ (before ++ [event]))).writers

theorem not_mem_of_not_readds {writers : List K}
    {events : List (WriterKeysEvent K)} {key : K}
    (hremoved : key ∉ (run writers events).writers) :
    ∀ since rest : List (WriterKeysEvent K),
      ¬ Readds writers events (since ++ rest) key →
      key ∉ (run writers (events ++ since)).writers := by
  intro since
  induction since using List.reverseRecOn with
  | nil =>
      intro rest _
      rwa [List.append_nil]
  | append_singleton since event ih =>
      intro rest hno hmem
      have hbefore : key ∉ (run writers (events ++ since)).writers := by
        apply ih (event :: rest)
        rwa [List.append_assoc] at hno
      apply hno
      exact ⟨since, event, rest, by simp, hbefore, hmem⟩

/-- Every call of `_getWriterKeys` returns what the ACL held at some moment
between its start and its return, never a key that was removed before it
started and not added again; and it does return once no invalidation comes
between. -/
theorem getWriterKeys_coherent (writers : List K)
    (events : List (WriterKeysEvent K)) (i : ℕ) :
    (∀ event keys, ReturnsBy writers events event i keys →
      HeldSince writers (events ++ [event]) i keys ∧
        ∀ past later removed, events ++ [event] = past ++ later →
          RemovesBy writers past removed →
          (run writers past).calls.length ≤ i →
          ¬ Readds writers past later removed → removed ∉ keys) ∧
      (i < (run writers events).calls.length →
        ∃ keys, (run writers (events ++ [.usersReads i, .resume i,
          .usersReads i, .resume i])).calls[i]? = some (.returned keys)) := by
  constructor
  · intro event keys hreturns
    have hheld := heldSince_of_obtained writers (events ++ [event]) i _ keys
      hreturns.2 (Or.inr rfl)
    refine ⟨hheld, ?_⟩
    intro past later removed heq hremoves hnew hno
    obtain ⟨-, -, -, -, hremoved⟩ := hremoves
    rw [heq] at hheld
    obtain ⟨since, rest, rfl, hkeys⟩ := hheld.after hnew
    rw [← hkeys]
    exact not_mem_of_not_readds hremoved since rest hno
  · intro hi
    rw [run, exec_append]
    exact exists_returned hi

/-- A list is cached, the first writer is removed, and a second call starts. -/
def removalRun : List (WriterKeysEvent ℕ) :=
  [.getWriterKeys, .usersReads 0, .resume 0, .startMutation (.removeWriter 1),
    .aclChanges [2], .endMutation 0, .getWriterKeys, .usersReads 1]

/-- The call after the removal returns the remaining writer. -/
theorem getWriterKeys_coherent_removal :
    ReturnsBy [1, 2] removalRun (.resume 1) 1 [2] ∧ 1 ∉ [2] := by
  have hreturns : ReturnsBy [1, 2] removalRun (.resume 1) 1 [2] := by
    constructor
    · intro keys h
      cases h
    · rfl
  refine ⟨hreturns, ?_⟩
  refine ((getWriterKeys_coherent [1, 2] removalRun 1).1 _ _ hreturns).2
    (removalRun.take 6) (removalRun.drop 6 ++ [.resume 1]) 1 rfl ?_ ?_ ?_
  · exact ⟨removalRun.take 5, 0, rfl, rfl, by decide⟩
  · decide
  · rintro ⟨before, event, after, heq, -, hmem⟩
    have hprefix : before ++ [event] ∈ (removalRun.drop 6 ++
        [WriterKeysEvent.resume 1]).inits := by
      rw [List.mem_inits, heq]
      exact ⟨after, by simp⟩
    have hwriters : ∀ since ∈ (removalRun.drop 6 ++
        [WriterKeysEvent.resume 1]).inits,
        (run [1, 2] (removalRun.take 6 ++ since)).writers = [2] := by
      decide
    rw [hwriters _ hprefix] at hmem
    exact absurd hmem (by decide)

end WriterKeys

end Collabswarm
