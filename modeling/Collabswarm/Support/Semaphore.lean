import Collabswarm.Support.Outputs

/-!
# Counting semaphores

A semaphore has a number of slots.  A task that finds no slot free waits, and a
slot that is given back goes straight to the task that has waited longest, so
that no task overtakes another one.
-/

namespace Collabswarm

/-- The tasks that hold a slot, and those that wait for one. -/
structure Semaphore (τ : Type*) where
  holding : Multiset τ
  waiting : List τ

namespace Semaphore

variable {τ : Type*} [DecidableEq τ] (capacity : ℕ)

/-- Take a slot, or wait for one. -/
def acquire (s : Semaphore τ) (t : τ) : Semaphore τ :=
  if s.holding.card < capacity then { s with holding := t ::ₘ s.holding }
  else { s with waiting := s.waiting ++ [t] }

/-- Pass a free slot on to the task that has waited longest. -/
def pass (s : Semaphore τ) : Semaphore τ :=
  match s.waiting with
  | [] => s
  | next :: rest => ⟨next ::ₘ s.holding, rest⟩

/-- Give a slot back. -/
def release (s : Semaphore τ) (t : τ) : Semaphore τ :=
  pass { s with holding := s.holding.erase t }

/-- The tasks that hold a slot or wait for one. -/
def tasks (s : Semaphore τ) : Multiset τ :=
  s.holding + s.waiting

/-- No more tasks hold a slot than there are slots, and a task waits only while
all slots are taken. -/
structure Fits (s : Semaphore τ) : Prop where
  bounded : s.holding.card ≤ capacity
  full : s.waiting ≠ [] → s.holding.card = capacity

variable {capacity} {s : Semaphore τ}

omit [DecidableEq τ] in
theorem Fits.waiting_eq_nil (h : s.Fits capacity)
    (hfree : s.holding.card < capacity) : s.waiting = [] := by
  by_contra hne
  exact hfree.ne (h.full hne)

omit [DecidableEq τ] in
theorem Fits.acquire (h : s.Fits capacity) (t : τ) :
    (s.acquire capacity t).Fits capacity := by
  unfold Semaphore.acquire
  split
  case isTrue hfree =>
    exact ⟨by simpa using hfree,
      fun hne => absurd (h.waiting_eq_nil hfree) hne⟩
  case isFalse hfree =>
    exact ⟨h.bounded, fun _ => le_antisymm h.bounded (not_lt.1 hfree)⟩

theorem Fits.release (h : s.Fits capacity) {t : τ} (ht : t ∈ s.holding) :
    (s.release t).Fits capacity := by
  have hcard : (s.holding.erase t).card + 1 = s.holding.card :=
    Multiset.card_erase_add_one ht
  have hbounded := h.bounded
  have hfull := h.full
  unfold Semaphore.release pass
  cases hwaiting : s.waiting with
  | nil => exact ⟨by dsimp only; omega, fun hne => absurd rfl hne⟩
  | cons next rest =>
      have hnext : (next ::ₘ s.holding.erase t).card = capacity := by
        rw [Multiset.card_cons, hcard]
        exact hfull (by simp [hwaiting])
      exact ⟨hnext.le, fun _ => hnext⟩

omit [DecidableEq τ] in
@[simp] theorem tasks_acquire (t : τ) :
    (s.acquire capacity t).tasks = t ::ₘ s.tasks := by
  unfold Semaphore.acquire tasks
  split
  case isTrue => exact Multiset.cons_add t _ _
  case isFalse =>
    rw [← Multiset.coe_add, Multiset.coe_singleton, ← add_assoc, add_comm,
      Multiset.singleton_add]

theorem cons_tasks_release {t : τ} (ht : t ∈ s.holding) :
    t ::ₘ (s.release t).tasks = s.tasks := by
  unfold Semaphore.release pass tasks
  cases hwaiting : s.waiting with
  | nil =>
      rw [Multiset.coe_nil, add_zero, add_zero, Multiset.cons_erase ht]
  | cons next rest =>
      rw [← Multiset.cons_coe, Multiset.cons_add, Multiset.add_cons,
        Multiset.cons_swap, ← Multiset.cons_add t, Multiset.cons_erase ht]

/-! ## Order -/

/-- The tasks that get a slot when a task asks for one. -/
def grantedByAcquire (capacity : ℕ) (s : Semaphore τ) (t : τ) : List τ :=
  if s.holding.card < capacity then [t] else []

/-- The tasks that get a slot when one is given back. -/
def grantedByRelease (s : Semaphore τ) : List τ :=
  s.waiting.head?.toList

omit [DecidableEq τ] in
/-- A task that asks is behind all that wait. -/
theorem Fits.waiting_acquire (h : s.Fits capacity) (t : τ) :
    s.waiting ++ [t] =
      grantedByAcquire capacity s t ++ (s.acquire capacity t).waiting := by
  unfold grantedByAcquire Semaphore.acquire
  split
  case isTrue hfree => simp [h.waiting_eq_nil hfree]
  case isFalse => rfl

/-- The slot goes to the first that waits. -/
theorem waiting_release (t : τ) :
    s.waiting = grantedByRelease s ++ (s.release t).waiting := by
  unfold grantedByRelease release pass
  cases s.waiting with
  | nil => rfl
  | cons next rest => rfl

end Semaphore

end Collabswarm
