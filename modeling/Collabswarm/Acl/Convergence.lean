import Collabswarm.Acl.AutomergeACL

/-!
# Replicas of an access control list

Any number of lists, one for each actor, take calls and merge the change blocks
that the calls returned.  No block is ever applied by another list, so a list
accepts the keys that its own calls added.
-/

namespace Collabswarm.AutomergeACL

variable {A H : Type} [LinearOrder A] [DecidableEq H]

/-- The lists of all actors and the returned change blocks. -/
structure Replicas (A H : Type) where
  list : A → AutomergeACL A H
  blocks : List (List (AclChange A H))

namespace Replicas

/-- What can happen at an actor's list. -/
inductive Event (A H : Type) where
  | add (actor : A) (hash : H)
  | remove (actor : A) (hash : H)
  | merge (actor : A) (block : ℕ)
deriving DecidableEq

/-- All lists as `AutomergeACLProvider.initialize` makes them. -/
def initial : Replicas A H := ⟨new, []⟩

/-- A call at a list returns its change block. -/
def returned (s : Replicas A H) (actor : A)
    (result : AutomergeACL A H × List (AclChange A H)) : Replicas A H :=
  ⟨Function.update s.list actor result.1, s.blocks ++ [result.2]⟩

/-- The lists after an event. -/
def step (s : Replicas A H) : Event A H → Replicas A H
  | .add actor hash => s.returned actor ((s.list actor).add hash)
  | .remove actor hash => s.returned actor ((s.list actor).remove hash)
  | .merge actor block =>
      match s.blocks[block]? with
      | some change =>
          { s with list :=
              Function.update s.list actor ((s.list actor).merge change) }
      | none => s

/-- All lists give the same answers, and a key that was added and never removed
is accepted everywhere. -/
def Converged (s : Replicas A H) (events : List (Event A H)) : Prop :=
  (∀ hash actor actor',
    (s.list actor).check hash = (s.list actor').check hash) ∧
  ∀ hash actor, .add actor hash ∈ events →
    (∀ actor', .remove actor' hash ∉ events) →
    ∀ actor', (s.list actor').check hash

/-- One call and what it means for a key at an actor's own list. -/
def ownCall (actor : A) (hash : H) (accepted : Bool) : Event A H → Bool
  | .add actor' hash' =>
      if actor' = actor ∧ hash' = hash then true else accepted
  | .remove actor' hash' =>
      if actor' = actor ∧ hash' = hash then false else accepted
  | .merge _ _ => accepted

/-- The last own call of an actor about a key is an `add`. -/
def lastCallAdds (events : List (Event A H)) (actor : A) (hash : H) : Bool :=
  events.foldl (ownCall actor hash) false

/-! ## Every list has its own changes only -/

/-- Every list applied its own changes only, and the blocks of its actor are
among them. -/
structure Separate (s : Replicas A H) : Prop where
  actor : ∀ a, (s.list a).actor = a
  own : ∀ a, (s.list a).Own
  blocks : ∀ block ∈ s.blocks, ∀ c ∈ block,
    Isolated c ∧ c ∈ (s.list c.id.1).acl.log

theorem initial_separate : (initial : Replicas A H).Separate where
  actor := fun _ => rfl
  own := new_own
  blocks := by simp [initial]

omit [LinearOrder A] [DecidableEq H] in
theorem change_actor (s : AutomergeACL A H)
    (ops : List (MapOp (OpId A) H)) : (s.change ops).1.actor = s.actor := by
  rw [change]
  split <;> rfl

omit [LinearOrder A] [DecidableEq H] in
theorem log_subset_change (s : AutomergeACL A H)
    (ops : List (MapOp (OpId A) H)) :
    s.acl.log ⊆ (s.change ops).1.acl.log := by
  rw [change]
  split
  · exact List.Subset.refl _
  · exact List.subset_append_left _ _

/-- A call is a single change of the list. -/
theorem add_eq_change (s : AutomergeACL A H) (hash : H) :
    ∃ ops, s.add hash = s.change ops := by
  rw [add]
  split
  · exact ⟨_, rfl⟩
  · exact ⟨_, rfl⟩

theorem remove_eq_change (s : AutomergeACL A H) (hash : H) :
    ∃ ops, s.remove hash = s.change ops := by
  rw [remove]
  split
  · exact ⟨_, rfl⟩
  · split
    · exact ⟨_, rfl⟩
    · exact ⟨_, rfl⟩

theorem Separate.returned {s : Replicas A H} (h : s.Separate) {a : A}
    {ops : List (MapOp (OpId A) H)}
    (hown : ((s.list a).change ops).1.Own)
    (hchange : ∀ c ∈ ((s.list a).change ops).2, Isolated c ∧
      c.id.1 = (s.list a).actor ∧ c ∈ ((s.list a).change ops).1.acl.log) :
    (s.returned a ((s.list a).change ops)).Separate where
  actor := by
    intro a'
    simp only [Replicas.returned, Function.update_apply]
    split
    · rename_i heq
      rw [change_actor, h.actor, heq]
    · exact h.actor a'
  own := by
    intro a'
    simp only [Replicas.returned, Function.update_apply]
    split
    · exact hown
    · exact h.own a'
  blocks := by
    intro block hblock c hc
    simp only [Replicas.returned, Function.update_apply]
    rcases List.mem_append.1 hblock with hold | hlast
    · obtain ⟨hisolated, hmem⟩ := h.blocks block hold c hc
      refine ⟨hisolated, ?_⟩
      split
      · rename_i heq
        rw [heq] at hmem
        exact log_subset_change _ ops hmem
      · exact hmem
    · rw [List.mem_singleton.1 hlast] at hc
      obtain ⟨hisolated, hactor, hmem⟩ := hchange c hc
      rw [h.actor] at hactor
      rw [if_pos hactor]
      exact ⟨hisolated, hmem⟩

theorem Separate.merge {s : Replicas A H} (h : s.Separate) (a : A)
    {block : List (AclChange A H)} (hblock : block ∈ s.blocks) :
    ({ s with list :=
        Function.update s.list a ((s.list a).merge block) } :
      Replicas A H).Separate ∧
      ((s.list a).merge block).acl.log = (s.list a).acl.log := by
  have hchanges : ∀ c ∈ block, Isolated c ∧
      (c.id.1 = (s.list a).actor → c ∈ (s.list a).acl.log) := by
    intro c hc
    obtain ⟨hisolated, hmem⟩ := h.blocks block hblock c hc
    refine ⟨hisolated, ?_⟩
    intro heq
    rw [h.actor] at heq
    exact heq ▸ hmem
  obtain ⟨hown, hlog⟩ := (h.own a).merge hchanges
  refine ⟨⟨?_, ?_, ?_⟩, hlog⟩
  · intro a'
    simp only [Function.update_apply]
    split
    · rename_i heq
      exact (h.actor a).trans heq.symm
    · exact h.actor a'
  · intro a'
    simp only [Function.update_apply]
    split
    · exact hown
    · exact h.own a'
  · intro block' hblock' c hc
    obtain ⟨hisolated, hmem⟩ := h.blocks block' hblock' c hc
    refine ⟨hisolated, ?_⟩
    simp only [Function.update_apply]
    split
    · rename_i heq
      rw [hlog, ← heq]
      exact hmem
    · exact hmem

/-- One event: the lists stay separate, and only an actor's own calls change
its answers. -/
theorem Separate.step {s : Replicas A H} (h : s.Separate) (e : Event A H) :
    (s.step e).Separate ∧ ∀ a hash,
      ((s.step e).list a).check hash =
        ownCall a hash ((s.list a).check hash) e := by
  cases e with
  | add b key =>
      obtain ⟨hown, hcheck, hchange⟩ := (h.own b).add key
      obtain ⟨ops, hops⟩ := add_eq_change (s.list b) key
      refine ⟨?_, ?_⟩
      · rw [Replicas.step, hops]
        rw [hops] at hown hchange
        exact h.returned hown hchange
      · intro a hash
        simp only [Replicas.step, Replicas.returned, Function.update_apply,
          ownCall]
        by_cases hab : a = b
        · subst hab
          simp only [if_true, hcheck, true_and, eq_comm]
        · have hba : b ≠ a := fun heq => hab heq.symm
          simp [hab, hba]
  | remove b key =>
      obtain ⟨hown, hcheck, hchange⟩ := (h.own b).remove key
      obtain ⟨ops, hops⟩ := remove_eq_change (s.list b) key
      refine ⟨?_, ?_⟩
      · rw [Replicas.step, hops]
        rw [hops] at hown hchange
        exact h.returned hown hchange
      · intro a hash
        simp only [Replicas.step, Replicas.returned, Function.update_apply,
          ownCall]
        by_cases hab : a = b
        · subst hab
          simp only [if_true, hcheck, true_and, eq_comm]
        · have hba : b ≠ a := fun heq => hab heq.symm
          simp [hab, hba]
  | merge b n =>
      rw [Replicas.step]
      split
      · rename_i block hn
        obtain ⟨hseparate, hlog⟩ := h.merge b (List.mem_of_getElem? hn)
        refine ⟨hseparate, ?_⟩
        intro a hash
        simp only [Function.update_apply, ownCall]
        split
        · rename_i heq
          rw [heq, check, check, users, users, ops, ops, hlog]
        · rfl
      · exact ⟨h, fun a hash => rfl⟩

/-- A run: every list answers by the calls made at it. -/
theorem exec_check (events : List (Event A H)) :
    ∀ {s : Replicas A H}, s.Separate → ∀ a hash,
      ((exec step s events).list a).check hash =
        events.foldl (ownCall a hash) ((s.list a).check hash) := by
  induction events with
  | nil =>
      intro s _ a hash
      rfl
  | cons e events ih =>
      intro s h a hash
      obtain ⟨hnext, hcheck⟩ := h.step e
      rw [exec_cons, ih hnext, hcheck, List.foldl_cons]

theorem check_eq_lastCallAdds (events : List (Event A H)) (a : A)
    (hash : H) :
    ((exec step initial events).list a).check hash =
      lastCallAdds events a hash := by
  rw [exec_check events initial_separate, lastCallAdds]
  exact congrArg (events.foldl (ownCall a hash)) (check_new a hash)

/-- A key that an actor added and never removed is one whose last call there is
an `add`. -/
theorem lastCallAdds_of_mem {events : List (Event A H)} {a : A} {hash : H}
    (hadd : .add a hash ∈ events) (hremove : .remove a hash ∉ events) :
    lastCallAdds events a hash = true := by
  induction events using List.reverseRecOn with
  | nil => cases hadd
  | append_singleton events e ih =>
      rw [List.mem_append, not_or] at hremove
      rw [lastCallAdds, List.foldl_append, List.foldl_cons, List.foldl_nil]
      rcases List.mem_append.1 hadd with hold | hlast
      · have hprevious : events.foldl (ownCall a hash) false = true :=
          ih hold hremove.1
        rw [hprevious]
        cases e with
        | add b key => simp [ownCall]
        | remove b key =>
            have hother : ¬ (b = a ∧ key = hash) := by
              rintro ⟨rfl, rfl⟩
              exact hremove.2 (by simp)
            rw [ownCall, if_neg hother]
        | merge b n => rfl
      · rw [← List.mem_singleton.1 hlast, ownCall, if_pos ⟨rfl, rfl⟩]

end Replicas

end Collabswarm.AutomergeACL
