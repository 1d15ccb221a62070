import Mathlib.Data.Prod.Lex
import Collabswarm.Support.CausalLog
import Collabswarm.Support.ObservedMap
import Collabswarm.Support.Transition

/-!
# Access control lists in Automerge

`AutomergeACL`: a document with a map `users`, in which the serialized keys of
the users are set.  Every list is created with a change of its own that creates
the map, and a change block contains what a call added only, so no block ever
contains the change that created the map it writes to.
-/

namespace Collabswarm

/-- The number of an operation: a counter and the actor. -/
abbrev OpId (A : Type) := ℕ ×ₗ A

/-- A change, numbered by its actor and the actor's count of changes. -/
abbrev AclChange (A H : Type) := CausalOp (A × ℕ) (List (MapOp (OpId A) H))

/-- A list: the actor, the number of its own changes, and the document. -/
structure AutomergeACL (A H : Type) where
  actor : A
  seq : ℕ
  acl : CausalLog (A × ℕ) (List (MapOp (OpId A) H))

namespace AutomergeACL

variable {A H : Type} [LinearOrder A] [DecidableEq H]

/-- The operations of the applied changes. -/
def ops (s : AutomergeACL A H) : List (MapOp (OpId A) H) :=
  s.acl.log.flatMap CausalOp.body

/-- The greatest counter of an applied operation. -/
def maxOp (s : AutomergeACL A H) : ℕ :=
  (s.ops.map fun op => (ofLex op.id).1).foldr max 0

/-- The number of the next operation, or of one after it. -/
def nextOp (s : AutomergeACL A H) (offset : ℕ) : OpId A :=
  toLex (s.maxOp + 1 + offset, s.actor)

/-- `change` and `getChanges`: apply operations and return the new change. -/
def change (s : AutomergeACL A H) (ops : List (MapOp (OpId A) H)) :
    AutomergeACL A H × List (AclChange A H) :=
  if ops = [] then (s, [])
  else
    ({ s with
        seq := s.seq + 1
        acl := s.acl.push ⟨(s.actor, s.seq), s.acl.ids, ops⟩ },
      [⟨(s.actor, s.seq), s.acl.ids, ops⟩])

/-- A new list, made by `from` with an empty map. -/
def new (actor : A) : AutomergeACL A H :=
  let s : AutomergeACL A H := ⟨actor, 0, .empty⟩
  (s.change [⟨s.nextOp 0, .make, []⟩]).1

/-- `doc.users`. -/
def users (s : AutomergeACL A H) : Option (OpId A) := MapOp.rootMap s.ops

/-- `add`. -/
def add (s : AutomergeACL A H) (hash : H) :
    AutomergeACL A H × List (AclChange A H) :=
  match s.users with
  | none => s.change [⟨s.nextOp 0, .make, []⟩,
      ⟨s.nextOp 1, .put (s.nextOp 0) hash, []⟩]
  | some users => s.change
      [⟨s.nextOp 0, .put users hash, MapOp.live s.ops users hash⟩]

/-- `remove`. -/
def remove (s : AutomergeACL A H) (hash : H) :
    AutomergeACL A H × List (AclChange A H) :=
  match s.users with
  | none => s.change [⟨s.nextOp 0, .make, []⟩]
  | some users =>
      if MapOp.live s.ops users hash ≠ [] then
        s.change [⟨s.nextOp 0, .delete users hash,
          MapOp.live s.ops users hash⟩]
      else s.change []

/-- `merge`. -/
def merge (s : AutomergeACL A H) (change : List (AclChange A H)) :
    AutomergeACL A H :=
  { s with acl := s.acl.receive change }

/-- `check`. -/
def check (s : AutomergeACL A H) (hash : H) : Bool :=
  match s.users with
  | none => false
  | some users => decide (MapOp.live s.ops users hash ≠ [])

/-! ## Lists that applied their own changes only -/

/-- A change that depends on the first change of its actor and on changes of
its actor only. -/
def Isolated (c : AclChange A H) : Prop :=
  (c.id.1, 0) ∈ c.deps ∧ ∀ x ∈ c.deps, x.1 = c.id.1

/-- A list that has applied its own changes, and waits for the first changes of
others. -/
structure Own (s : AutomergeACL A H) : Prop where
  wellFormed : s.acl.WellFormed
  first : (s.actor, 0) ∈ s.acl.ids
  own : ∀ c ∈ s.acl.log, c.id.1 = s.actor ∧ c.id.2 < s.seq
  foreign : ∀ c ∈ s.acl.pending, c.id.1 ≠ s.actor ∧ Isolated c
  ops_wellFormed : MapOp.WellFormed s.ops
  users_isSome : s.users.isSome

omit [LinearOrder A] [DecidableEq H] in
theorem nextOp_not_mem (s : AutomergeACL A H) :
    s.nextOp 0 ∉ s.ops.map MapOp.id := by
  intro hmem
  obtain ⟨op, hop, heq⟩ := List.mem_map.1 hmem
  have hle : (ofLex op.id).1 ≤ s.maxOp := by
    have hcounter : (ofLex op.id).1 ∈
        s.ops.map fun op => (ofLex op.id).1 := List.mem_map_of_mem hop
    rw [maxOp]
    generalize s.ops.map (fun op => (ofLex op.id).1) = counters at hcounter
    induction counters with
    | nil => cases hcounter
    | cons c counters ih =>
        rw [List.foldr_cons]
        rcases List.mem_cons.1 hcounter with heq | hmem
        · exact heq ▸ le_max_left _ _
        · exact le_trans (ih hmem) (le_max_right _ _)
  rw [heq] at hle
  exact absurd hle (by simp [nextOp])

omit [LinearOrder A] [DecidableEq H] in
theorem ops_change {s : AutomergeACL A H} (op : MapOp (OpId A) H) :
    (s.change [op]).1.ops = s.ops ++ [op] := by
  simp [change, ops, CausalLog.push]

/-- The change of a single operation that leaves the map in place. -/
theorem Own.change {s : AutomergeACL A H} (h : s.Own)
    {op : MapOp (OpId A) H} (hid : op.id = s.nextOp 0)
    (hpred : op.pred ⊆ s.ops.map MapOp.id) (haction : op.action ≠ .make) :
    (s.change [op]).1.Own := by
  have hnotMem : op.id ∉ s.ops.map MapOp.id := hid ▸ s.nextOp_not_mem
  have hnumber : (s.actor, s.seq) ∉ s.acl.all.map CausalOp.id := by
    intro hmem
    obtain ⟨c, hc, heq⟩ := List.mem_map.1 hmem
    rcases List.mem_append.1 hc with hlog | hpending
    · have hlt := (h.own c hlog).2
      rw [heq] at hlt
      exact lt_irrefl _ hlt
    · exact (h.foreign c hpending).1 (by rw [heq])
  have hdeps : ∀ c ∈ s.acl.pending, (s.actor, s.seq) ∉ c.deps := by
    intro c hc hmem
    obtain ⟨hne, -, hactor⟩ := h.foreign c hc
    exact hne (hactor _ hmem).symm
  refine ⟨?_, ?_, ?_, h.foreign, ?_, ?_⟩
  · exact h.wellFormed.push hnumber (List.Subset.refl _) hdeps
  · simp only [AutomergeACL.change, CausalLog.push, CausalLog.ids]
    exact List.map_subset _ (List.subset_append_left _ _) h.first
  · intro c hc
    rcases List.mem_append.1 hc with hold | hlast
    · exact ⟨(h.own c hold).1, Nat.lt_succ_of_lt (h.own c hold).2⟩
    · rw [List.mem_singleton.1 hlast]
      exact ⟨rfl, Nat.lt_succ_self _⟩
  · rw [ops_change]
    exact h.ops_wellFormed.append hnotMem hpred
  · rw [users, ops_change, MapOp.rootMap_append haction]
    exact h.users_isSome

/-- What an operation on a key does to `check`. -/
theorem Own.check_change {s : AutomergeACL A H} (h : s.Own)
    {op : MapOp (OpId A) H} (hid : op.id = s.nextOp 0) {users : OpId A}
    (husers : s.users = some users) {hash : H}
    (hpred : op.pred = MapOp.live s.ops users hash)
    (haction : op.action ≠ .make) (hash' : H) :
    (s.change [op]).1.check hash' =
      decide ((hash' ≠ hash ∧ s.check hash') ∨
        op.action = .put users hash') := by
  have hnotMem : op.id ∉ s.ops.map MapOp.id := hid ▸ s.nextOp_not_mem
  have husers' : (s.change [op]).1.users = some users := by
    rw [AutomergeACL.users, ops_change, MapOp.rootMap_append haction]
    exact husers
  have hlive := h.ops_wellFormed.mem_live_append hnotMem hpred hash'
  rw [check, check, husers', husers, ops_change]
  simp only [decide_eq_decide, decide_eq_true_eq, ne_eq,
    List.eq_nil_iff_forall_not_mem, not_forall, not_not, hlive]
  constructor
  · rintro ⟨x, ⟨hne, hx⟩ | ⟨hput, -⟩⟩
    · exact Or.inl ⟨hne, x, hx⟩
    · exact Or.inr hput
  · rintro (⟨hne, x, hx⟩ | hput)
    · exact ⟨x, Or.inl ⟨hne, hx⟩⟩
    · exact ⟨op.id, Or.inr ⟨hput, rfl⟩⟩

/-! ## The methods -/

theorem new_own (actor : A) : (new actor : AutomergeACL A H).Own where
  wellFormed := ⟨by simp [new, change, CausalLog.push, CausalLog.all,
      CausalLog.empty], by simp [new, change, CausalLog.push,
      CausalLog.empty, CausalLog.ids, CausalLog.Causal], by simp [new, change,
      CausalLog.push, CausalLog.empty]⟩
  first := by simp [new, change, CausalLog.push, CausalLog.empty,
    CausalLog.ids]
  own := by simp [new, change, CausalLog.push, CausalLog.empty]
  foreign := by simp [new, change, CausalLog.push, CausalLog.empty]
  ops_wellFormed := by
    rw [new, ops_change]
    exact ⟨by simp [ops, CausalLog.empty], by simp [ops, CausalLog.empty]⟩
  users_isSome := by
    rw [new, users, ops_change]
    simp [ops, CausalLog.empty, MapOp.rootMap]

/-- A new list accepts nobody. -/
theorem check_new (actor : A) (hash : H) :
    (new actor : AutomergeACL A H).check hash = false := by
  rw [check]
  split
  · rfl
  · rw [new, ops_change]
    simp [ops, CausalLog.empty, MapOp.live]

/-- The change that a call returns. -/
theorem Own.isolated_change {s : AutomergeACL A H} (h : s.Own)
    {ops : List (MapOp (OpId A) H)} {c : AclChange A H}
    (hc : c ∈ (s.change ops).2) :
    Isolated c ∧ c.id.1 = s.actor ∧ c ∈ (s.change ops).1.acl.log := by
  rw [AutomergeACL.change] at hc ⊢
  split at hc
  · cases hc
  · rename_i hne
    rw [if_neg hne]
    rw [List.mem_singleton.1 hc]
    refine ⟨⟨h.first, ?_⟩, rfl, by simp [CausalLog.push]⟩
    intro x hx
    obtain ⟨c', hc', rfl⟩ := List.mem_map.1 hx
    exact (h.own c' hc').1

/-- `add` lets one more key pass, and returns an isolated change. -/
theorem Own.add {s : AutomergeACL A H} (h : s.Own) (hash : H) :
    (s.add hash).1.Own ∧
      (∀ hash', (s.add hash).1.check hash' =
        if hash' = hash then true else s.check hash') ∧
      ∀ c ∈ (s.add hash).2, Isolated c ∧ c.id.1 = s.actor ∧
        c ∈ (s.add hash).1.acl.log := by
  obtain ⟨users, husers⟩ := Option.isSome_iff_exists.1 h.users_isSome
  have hadd : s.add hash = s.change
      [⟨s.nextOp 0, .put users hash, MapOp.live s.ops users hash⟩] := by
    rw [AutomergeACL.add, husers]
  rw [hadd]
  refine ⟨h.change rfl (MapOp.live_subset _ _ _) (by simp), ?_,
    fun c hc => h.isolated_change hc⟩
  intro hash'
  rw [h.check_change rfl husers rfl (by simp)]
  by_cases heq : hash' = hash
  · simp [heq]
  · have hne : hash ≠ hash' := fun h => heq h.symm
    simp [heq, hne]

/-- `remove` stops one key, and returns isolated changes. -/
theorem Own.remove {s : AutomergeACL A H} (h : s.Own) (hash : H) :
    (s.remove hash).1.Own ∧
      (∀ hash', (s.remove hash).1.check hash' =
        if hash' = hash then false else s.check hash') ∧
      ∀ c ∈ (s.remove hash).2, Isolated c ∧ c.id.1 = s.actor ∧
        c ∈ (s.remove hash).1.acl.log := by
  obtain ⟨users, husers⟩ := Option.isSome_iff_exists.1 h.users_isSome
  by_cases hlive : MapOp.live s.ops users hash = []
  · have hremove : s.remove hash = s.change [] := by
      rw [AutomergeACL.remove, husers]
      simp [hlive]
    rw [hremove]
    refine ⟨h, ?_, fun c hc => h.isolated_change hc⟩
    intro hash'
    by_cases heq : hash' = hash
    · simp [AutomergeACL.change, check, husers, heq, hlive]
    · simp [AutomergeACL.change, heq]
  · have hremove : s.remove hash = s.change
        [⟨s.nextOp 0, .delete users hash, MapOp.live s.ops users hash⟩] := by
      rw [AutomergeACL.remove, husers]
      simp [hlive]
    rw [hremove]
    refine ⟨h.change rfl (MapOp.live_subset _ _ _) (by simp), ?_,
      fun c hc => h.isolated_change hc⟩
    intro hash'
    rw [h.check_change rfl husers rfl (by simp)]
    by_cases heq : hash' = hash
    · simp [heq]
    · simp [heq]

/-- Merging isolated changes of others, or changes of our own, applies
nothing. -/
theorem Own.merge {s : AutomergeACL A H} (h : s.Own)
    {block : List (AclChange A H)}
    (hblock : ∀ c ∈ block, Isolated c ∧
      (c.id.1 = s.actor → c ∈ s.acl.log)) :
    (s.merge block).Own ∧ (s.merge block).acl.log = s.acl.log := by
  obtain ⟨-, hall, -, -, hwf⟩ := s.acl.receive_spec block
  have hids : ∀ x ∈ s.acl.ids, x.1 = s.actor := by
    intro x hx
    obtain ⟨c, hc, rfl⟩ := List.mem_map.1 hx
    exact (h.own c hc).1
  have hlog : (s.merge block).acl.log = s.acl.log := by
    refine h.wellFormed.receive_log ?_
    intro c hc hnew
    have hforeign : c.id.1 ≠ s.actor ∧ Isolated c := by
      rcases hc with hpending | hmem
      · exact h.foreign c hpending
      · exact ⟨fun heq => hnew ((hblock c hmem).2 heq), (hblock c hmem).1⟩
    refine ⟨(c.id.1, 0), hforeign.2.1, ?_⟩
    intro hmem
    exact hforeign.1 (hids (c.id.1, 0) hmem)
  have hops : (s.merge block).ops = s.ops := by
    rw [ops, ops, hlog]
  refine ⟨⟨hwf h.wellFormed, ?_, ?_, ?_, ?_, ?_⟩, hlog⟩
  · rw [CausalLog.ids, hlog]
    exact h.first
  · rw [hlog]
    exact h.own
  · intro c hc
    have hnew : c ∉ s.acl.log := by
      have hnodup := (hwf h.wellFormed).nodup.of_map
      intro hold
      rw [CausalLog.all, List.nodup_append] at hnodup
      exact hnodup.2.2 c (hlog.symm ▸ hold) c hc rfl
    rcases hall c (List.mem_append_right _ hc) with hold | hmem
    · rcases List.mem_append.1 hold with hold | hold
      · exact absurd hold hnew
      · exact h.foreign c hold
    · exact ⟨fun heq => hnew ((hblock c hmem).2 heq), (hblock c hmem).1⟩
  · rw [hops]
    exact h.ops_wellFormed
  · rw [users, hops]
    exact h.users_isSome

end AutomergeACL

end Collabswarm
