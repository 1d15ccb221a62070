import Collabswarm.Support.Transition

/-!
# Asynchronous functions on a shared state

An asynchronous function runs without interruption between two awaits and can
be interrupted at an await.  `resume` runs it to its next await, `runAlone` to
its end without interruption.  A serial queue starts a task when the one before
it has settled; whatever the tasks do, it has the effect of running them one
after the other in the order in which they were issued.
-/

namespace Collabswarm

/-- A function that accesses a state of type `σ` and awaits.  An access reads
the state and then changes it. -/
inductive Async (σ α : Type) where
  | done (result : α)
  | access (change : σ → σ) (next : σ → Async σ α)
  | await (next : Async σ α)

namespace Async

variable {σ α β : Type}

/-- Sequential composition. -/
def bind (f : α → Async σ β) : Async σ α → Async σ β
  | .done a => f a
  | .access change next => .access change fun s => (next s).bind f
  | .await next => .await (next.bind f)

instance : Monad (Async σ) where
  pure := .done
  bind task f := task.bind f

/-- Read the state. -/
def read : Async σ σ := .access id .done

/-- Change the state. -/
def write (change : σ → σ) : Async σ Unit := .access change fun _ => .done ()

/-- Await a value that is computed elsewhere. -/
def awaiting (a : α) : Async σ α := .await (.done a)

/-- Run to the next await, or to the end. -/
def resume : Async σ α → σ → σ × Async σ α
  | .done a, s => (s, .done a)
  | .access change next, s => (next s).resume (change s)
  | .await next, s => (s, next)

/-- Run to the end without interruption. -/
def runAlone : Async σ α → σ → σ × α
  | .done a, s => (s, a)
  | .access change next, s => (next s).runAlone (change s)
  | .await next, s => next.runAlone s

/-! ## Running alone -/

@[simp] theorem runAlone_pure (a : α) (s : σ) :
    (pure a : Async σ α).runAlone s = (s, a) := rfl

@[simp] theorem runAlone_bind (task : Async σ α) (f : α → Async σ β) (s : σ) :
    (task >>= f).runAlone s =
      (f (task.runAlone s).2).runAlone (task.runAlone s).1 := by
  induction task generalizing s with
  | done a => rfl
  | access change next ih => exact ih s (change s)
  | await next ih => exact ih s

@[simp] theorem runAlone_read (s : σ) :
    (read : Async σ σ).runAlone s = (s, s) := rfl

@[simp] theorem runAlone_write (change : σ → σ) (s : σ) :
    (write change).runAlone s = (change s, ()) := rfl

@[simp] theorem runAlone_awaiting (a : α) (s : σ) :
    (awaiting a : Async σ α).runAlone s = (s, a) := rfl

/-- One step of a function does not change what it computes alone. -/
theorem runAlone_resume (task : Async σ α) (s : σ) :
    (task.resume s).2.runAlone (task.resume s).1 = task.runAlone s := by
  induction task generalizing s with
  | done a => rfl
  | access change next ih => exact ih s (change s)
  | await next ih => rfl

/-! ## What holds at every await -/

/-- Run alone, the function finds `inv` at every await and ends with `post`. -/
def Keeps (inv : σ → Prop) (post : α → σ → Prop) : Async σ α → σ → Prop
  | .done a, s => post a s
  | .access change next, s => (next s).Keeps inv post (change s)
  | .await next, s => inv s ∧ next.Keeps inv post s

section Keeps

variable {inv : σ → Prop}

theorem keeps_imp {post post' : α → σ → Prop}
    (himp : ∀ a s, post a s → post' a s) :
    ∀ {task : Async σ α} {s : σ}, task.Keeps inv post s →
      task.Keeps inv post' s := by
  intro task
  induction task with
  | done a =>
      intro s h
      exact himp a s h
  | access change next ih =>
      intro s h
      exact ih s h
  | await next ih =>
      intro s h
      exact ⟨h.1, ih h.2⟩

@[simp] theorem keeps_bind {post : β → σ → Prop} {f : α → Async σ β} :
    ∀ {task : Async σ α} {s : σ},
      (task >>= f).Keeps inv post s ↔
        task.Keeps inv (fun a => (f a).Keeps inv post) s := by
  intro task
  induction task with
  | done a =>
      intro s
      exact Iff.rfl
  | access change next ih =>
      intro s
      exact ih s
  | await next ih =>
      intro s
      exact and_congr_right fun _ => ih

@[simp] theorem keeps_pure {post : α → σ → Prop} {a : α} {s : σ} :
    (pure a : Async σ α).Keeps inv post s ↔ post a s := Iff.rfl

@[simp] theorem keeps_read {post : σ → σ → Prop} {s : σ} :
    (read : Async σ σ).Keeps inv post s ↔ post s s := Iff.rfl

@[simp] theorem keeps_write {post : Unit → σ → Prop} {change : σ → σ}
    {s : σ} : (write change).Keeps inv post s ↔ post () (change s) := Iff.rfl

@[simp] theorem keeps_awaiting {post : α → σ → Prop} {a : α} {s : σ} :
    (awaiting a : Async σ α).Keeps inv post s ↔ inv s ∧ post a s := Iff.rfl

theorem Keeps.resume {post : α → σ → Prop} :
    ∀ {task : Async σ α} {s : σ}, task.Keeps inv post s →
      (∃ a, (task.resume s).2 = .done a ∧ post a (task.resume s).1) ∨
        inv (task.resume s).1 ∧
          (task.resume s).2.Keeps inv post (task.resume s).1 := by
  intro task
  induction task with
  | done a =>
      intro s h
      exact Or.inl ⟨a, rfl, h⟩
  | access change next ih =>
      intro s h
      exact ih s h
  | await next ih =>
      intro s h
      exact Or.inr h

theorem Keeps.runAlone {post : α → σ → Prop} :
    ∀ {task : Async σ α} {s : σ}, task.Keeps inv post s →
      post (task.runAlone s).2 (task.runAlone s).1 := by
  intro task
  induction task with
  | done a =>
      intro s h
      exact h
  | access change next ih =>
      intro s h
      exact ih s h
  | await next ih =>
      intro s h
      exact ih h.2

end Keeps

end Async

/-! ## Serial queues -/

/-- A queue of tasks: the state, the tasks that have not settled, the first of
them running, and the results of those that have, in this order. -/
structure SerialQueue (σ α : Type) where
  state : σ
  waiting : List (Async σ α)
  settled : List α

/-- What happens to a queue: a task is issued, or the running task goes on. -/
inductive QueueEvent (σ α : Type) where
  | issue (task : Async σ α)
  | resume

namespace SerialQueue

variable {σ α : Type}

/-- One event. -/
def step (q : SerialQueue σ α) : QueueEvent σ α → SerialQueue σ α
  | .issue task => { q with waiting := q.waiting ++ [task] }
  | .resume =>
      match q.waiting with
      | [] => q
      | task :: rest =>
          match task.resume q.state with
          | (state, .done a) => ⟨state, rest, q.settled ++ [a]⟩
          | (state, task) => ⟨state, task :: rest, q.settled⟩

/-- Run tasks one after the other. -/
def sequential (s : σ) : List (Async σ α) → σ × List α
  | [] => (s, [])
  | task :: tasks =>
      let after := sequential (task.runAlone s).1 tasks
      (after.1, (task.runAlone s).2 :: after.2)

/-- The tasks that a list of events issues. -/
def issued : List (QueueEvent σ α) → List (Async σ α)
  | [] => []
  | .issue task :: events => task :: issued events
  | .resume :: events => issued events

theorem issued_append (events events' : List (QueueEvent σ α)) :
    issued (events ++ events') = issued events ++ issued events' := by
  induction events with
  | nil => rfl
  | cons event events ih =>
      cases event with
      | issue task => simp [issued, ih]
      | resume => simp [issued, ih]

theorem sequential_append (tasks tasks' : List (Async σ α)) (s : σ) :
    sequential s (tasks ++ tasks') =
      ((sequential (sequential s tasks).1 tasks').1,
        (sequential s tasks).2 ++
          (sequential (sequential s tasks).1 tasks').2) := by
  induction tasks generalizing s with
  | nil => rfl
  | cons task tasks ih => simp [sequential, ih]

/-- The queue `q` is a stage of the sequential run of `tasks`: finishing what
waits now gives the results of that run.  Its state satisfies `inv`, and so
will all states it passes. -/
structure Serialises (inv : σ → Prop) (post : α → σ → Prop) (s : σ)
    (tasks : List (Async σ α)) (q : SerialQueue σ α) : Prop where
  finished : sequential s tasks =
    ((sequential q.state q.waiting).1,
      q.settled ++ (sequential q.state q.waiting).2)
  state : inv q.state
  head : ∀ task ∈ q.waiting.head?, task.Keeps inv post q.state
  others : ∀ task ∈ q.waiting.tail, ∀ s', inv s' → task.Keeps inv post s'

section Serialises

variable {inv : σ → Prop} {post : α → σ → Prop} {s : σ}
  {tasks : List (Async σ α)} {q : SerialQueue σ α}

theorem Serialises.issue (h : Serialises inv post s tasks q)
    {task : Async σ α} (htask : ∀ s', inv s' → task.Keeps inv post s') :
    Serialises inv post s (tasks ++ [task]) (q.step (.issue task)) := by
  have hfinished : sequential s (tasks ++ [task]) =
      ((sequential q.state (q.waiting ++ [task])).1,
        q.settled ++ (sequential q.state (q.waiting ++ [task])).2) := by
    simp only [sequential_append, h.finished, List.append_assoc]
  rcases hwaiting : q.waiting with _ | ⟨first, rest⟩
  · refine ⟨hfinished, h.state, ?_, ?_⟩
    · intro task' hmem
      simp only [step, hwaiting, List.nil_append, List.head?_cons,
        Option.mem_def, Option.some.injEq] at hmem
      rw [← hmem]
      exact htask q.state h.state
    · intro task' hmem
      simp [step, hwaiting] at hmem
  · refine ⟨hfinished, h.state, ?_, ?_⟩
    · intro task' hmem
      simp only [step, hwaiting, List.cons_append, List.head?_cons,
        Option.mem_def, Option.some.injEq] at hmem
      exact h.head task' (by simp [hwaiting, hmem])
    · intro task' hmem
      simp only [step, hwaiting, List.cons_append, List.tail_cons,
        List.mem_append, List.mem_singleton] at hmem
      rcases hmem with hold | rfl
      · exact h.others task' (by simp [hwaiting, hold])
      · exact htask

theorem Serialises.resume (hpost : ∀ a s, post a s → inv s)
    (h : Serialises inv post s tasks q) :
    Serialises inv post s tasks (q.step .resume) := by
  rw [step]
  rcases hwaiting : q.waiting with _ | ⟨task, rest⟩
  · exact h
  have hfinished := h.finished
  have hothers := h.others
  have hstep := (h.head task (by simp [hwaiting])).resume
  have halone := task.runAlone_resume q.state
  rw [hwaiting] at hfinished hothers
  dsimp only
  split
  · rename_i state a hresume
    rw [hresume] at hstep halone
    have hinv : inv state := by
      rcases hstep with ⟨a', -, hdone⟩ | ⟨hinv, -⟩
      · exact hpost a' state hdone
      · exact hinv
    refine ⟨?_, hinv, ?_, ?_⟩
    · rw [hfinished]
      simp only [sequential, ← halone, Async.runAlone, List.append_assoc,
        List.cons_append, List.nil_append]
    · intro task' hmem
      exact hothers task' (List.mem_of_mem_head? hmem) state hinv
    · intro task' hmem
      exact hothers task' (List.mem_of_mem_tail hmem)
  · rename_i state task' hrunning hresume
    rw [hresume] at hstep halone
    rcases hstep with ⟨a, heq, -⟩ | ⟨hinv, hkept⟩
    · exact absurd heq (hrunning a)
    · refine ⟨?_, hinv, ?_, hothers⟩
      · rw [hfinished]
        simp only [sequential, ← halone]
      · intro task'' hmem
        cases hmem
        exact hkept

end Serialises

/-- Whatever is issued and however far the running task is, the queue is a
stage of the sequential run of the issued tasks. -/
theorem serialises_exec (inv : σ → Prop) (post : α → σ → Prop)
    (hpost : ∀ a s, post a s → inv s) {s : σ} (hs : inv s)
    (events : List (QueueEvent σ α))
    (hkeeps : ∀ task ∈ issued events, ∀ s', inv s' →
      task.Keeps inv post s') :
    Serialises inv post s (issued events)
      (exec step ⟨s, [], []⟩ events) := by
  induction events using List.reverseRecOn with
  | nil => exact ⟨rfl, hs, by simp [exec], by simp [exec]⟩
  | append_singleton events event ih =>
      rw [issued_append] at hkeeps ⊢
      rw [exec_append]
      have h := ih fun task htask => hkeeps task (by simp [htask])
      cases event with
      | issue task => exact h.issue (hkeeps task (by simp [issued]))
      | resume =>
          have hissued : issued events ++ issued [(.resume : QueueEvent σ α)] =
              issued events := by simp [issued]
          rw [hissued]
          exact h.resume hpost

/-- The first task settles after finitely many steps. -/
theorem exists_first_settled (rest : List (Async σ α)) (settled : List α) :
    ∀ (task : Async σ α) (state : σ),
      ∃ n, exec step ⟨state, task :: rest, settled⟩
          (List.replicate (n + 1) .resume) =
        ⟨(task.runAlone state).1, rest,
          settled ++ [(task.runAlone state).2]⟩ := by
  intro task
  induction task with
  | done a =>
      intro state
      exact ⟨0, rfl⟩
  | access change next ih =>
      intro state
      exact ih state (change state)
  | await next ih =>
      intro state
      cases next with
      | done a => exact ⟨0, rfl⟩
      | access change next =>
          obtain ⟨n, hn⟩ := ih state
          exact ⟨n + 1, hn⟩
      | await next =>
          obtain ⟨n, hn⟩ := ih state
          exact ⟨n + 1, hn⟩

/-- No task is blocked by what the tasks before it do: after enough steps
everything that was issued has settled. -/
theorem exists_settled (q : SerialQueue σ α) :
    ∃ n, exec step q (List.replicate n .resume) =
      ⟨(sequential q.state q.waiting).1, [],
        q.settled ++ (sequential q.state q.waiting).2⟩ := by
  obtain ⟨state, waiting, settled⟩ := q
  induction waiting generalizing state settled with
  | nil => exact ⟨0, by simp [sequential]⟩
  | cons task rest ih =>
      obtain ⟨n, hn⟩ := exists_first_settled rest settled task state
      obtain ⟨k, hk⟩ := ih (task.runAlone state).1
        (settled ++ [(task.runAlone state).2])
      refine ⟨n + 1 + k, ?_⟩
      rw [List.replicate_add, exec_append, hn, hk]
      simp [sequential]

end SerialQueue

end Collabswarm
