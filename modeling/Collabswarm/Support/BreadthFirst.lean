import Mathlib.Logic.Relation
import Mathlib.Tactic

/-!
# Breadth-first traversals that stop expanding

A traversal of a forest with a queue that counts the nodes it meets.  From the
node on at which the count reaches a limit, the nodes that count are cut: their
children are not enqueued.  Whether a node remains can be read off the full
breadth-first order: none of its counting ancestors has rank `limit` or more in
it.
-/

namespace Collabswarm.BreadthFirst

variable {α : Type*} (children : α → List α)

/-- A node and all nodes below it. -/
def Descends : α → α → Prop :=
  Relation.ReflTransGen fun a b => b ∈ children a

/-- Different nodes of the list have nothing below them in common. -/
def Apart (nodes : List α) : Prop :=
  nodes.Pairwise fun a b => ∀ x, Descends children a x →
    ¬ Descends children b x

/-- Every node is reached on one path, and every node has a finite size. -/
structure Forest (size : α → ℕ) : Prop where
  apart : ∀ a, Apart children (children a)
  acyclic : ∀ a, ∀ b ∈ children a, ¬ Descends children b a
  size_children : ∀ a, ((children a).map size).sum < size a

/-- The breadth-first order of the nodes below a queue. -/
def order : ℕ → List α → List α
  | 0, _ => []
  | _, [] => []
  | fuel + 1, a :: rest => a :: order fuel (rest ++ children a)

section Cut

variable (counts : α → Bool) (limit : ℕ)

/-- The nodes that are cut, for a queue after `count` nodes that count. -/
def cuts : ℕ → List α → ℕ → List α
  | 0, _, _ => []
  | _, [], _ => []
  | fuel + 1, a :: rest, count =>
      if counts a then
        if limit ≤ count + 1 then a :: cuts fuel rest (count + 1)
        else cuts fuel (rest ++ children a) (count + 1)
      else cuts fuel (rest ++ children a) count

/-- The number of counting nodes up to a node of a list. -/
def rank [DecidableEq α] : List α → α → ℕ
  | [], _ => 0
  | a :: nodes, x =>
      (if counts a then 1 else 0) + if a = x then 0 else rank nodes x

end Cut

variable {children} {counts : α → Bool} {limit : ℕ} {size : α → ℕ}

theorem Descends.cases_head {a x : α} (h : Descends children a x) :
    a = x ∨ ∃ b ∈ children a, Descends children b x := by
  rcases Relation.ReflTransGen.cases_head h with rfl | ⟨b, hb, hx⟩
  · exact Or.inl rfl
  · exact Or.inr ⟨b, hb, hx⟩

/-- What is below one of the nodes is not below another one. -/
theorem Apart.ne {a x : α} {rest : List α} (h : Apart children (a :: rest))
    (hforest : Forest children size) {q : α} (hq : q ∈ rest ++ children a)
    (hx : Descends children q x) : a ≠ x := by
  rintro rfl
  rcases List.mem_append.1 hq with hrest | hchild
  · exact List.rel_of_pairwise_cons h hrest a Relation.ReflTransGen.refl hx
  · exact hforest.acyclic a q hchild hx

theorem Apart.expand {a : α} {rest : List α}
    (h : Apart children (a :: rest)) (hforest : Forest children size) :
    Apart children (rest ++ children a) := by
  refine List.pairwise_append.2 ⟨(List.pairwise_cons.1 h).2, hforest.apart a,
    ?_⟩
  intro b hb c hc x hbx hcx
  have hax : Descends children a x := Relation.ReflTransGen.head hc hcx
  exact List.rel_of_pairwise_cons h hb x hax hbx

theorem Forest.antisymm (hforest : Forest children size) {y z : α}
    (hyz : Descends children y z) (hzy : Descends children z y) : y = z := by
  rcases hyz.cases_head with heq | ⟨b, hb, hbz⟩
  · exact heq
  · exact absurd (hbz.trans hzy) (hforest.acyclic y b hb)

theorem size_expand (hforest : Forest children size) (a : α) (rest : List α) :
    ((rest ++ children a).map size).sum < ((a :: rest).map size).sum := by
  have hlt := hforest.size_children a
  simp only [List.map_append, List.sum_append, List.map_cons, List.sum_cons]
  omega

section Rank

variable [DecidableEq α]

/-- A node that is cut counts, is below the queue, and its rank has reached the
limit. -/
theorem rank_of_mem_cuts (hforest : Forest children size) {x : α} :
    ∀ (fuel : ℕ) (queue : List α) (count : ℕ), Apart children queue →
      x ∈ cuts children counts limit fuel queue count →
      counts x = true ∧ (∃ q ∈ queue, Descends children q x) ∧
        limit ≤ count + rank counts (order children fuel queue) x := by
  intro fuel
  induction fuel with
  | zero =>
      intro queue count _ hx
      cases hx
  | succ fuel ih =>
      intro queue count hapart hx
      rcases queue with _ | ⟨a, rest⟩
      · cases hx
      have hexpand : ∀ count',
          count' = (if counts a then count + 1 else count) →
          x ∈ cuts children counts limit fuel (rest ++ children a) count' →
          counts x = true ∧ (∃ q ∈ a :: rest, Descends children q x) ∧
            limit ≤ count + rank counts
              (order children (fuel + 1) (a :: rest)) x := by
        intro count' hcount' hx
        obtain ⟨hcounts, ⟨q, hq, hqx⟩, hrank⟩ :=
          ih _ count' (hapart.expand hforest) hx
        refine ⟨hcounts, ?_, ?_⟩
        · rcases List.mem_append.1 hq with hrest | hchild
          · exact ⟨q, List.mem_cons_of_mem a hrest, hqx⟩
          · exact ⟨a, List.mem_cons_self,
              Relation.ReflTransGen.head hchild hqx⟩
        · rw [order, rank, if_neg (hapart.ne hforest hq hqx)]
          by_cases hca : counts a = true
          · rw [if_pos hca] at hcount' ⊢
            omega
          · rw [if_neg hca] at hcount' ⊢
            omega
      rw [cuts] at hx
      split at hx
      · rename_i hcounts
        split at hx
        · rename_i hlimit
          rw [order, rank, if_pos hcounts]
          rcases List.mem_cons.1 hx with rfl | hx
          · exact ⟨hcounts, ⟨x, List.mem_cons_self,
              Relation.ReflTransGen.refl⟩, by omega⟩
          · obtain ⟨hcountsx, ⟨q, hq, hqx⟩, -⟩ :=
              ih rest (count + 1) (List.pairwise_cons.1 hapart).2 hx
            exact ⟨hcountsx, ⟨q, List.mem_cons_of_mem a hq, hqx⟩, by omega⟩
        · exact hexpand _ (if_pos hcounts).symm hx
      · rename_i hcounts
        exact hexpand _ (if_neg hcounts).symm hx

/-- A counting node below the queue whose rank has reached the limit is cut,
unless it is below another node that is cut. -/
theorem mem_cuts_of_rank (hforest : Forest children size) {x : α}
    (hcounts : counts x = true) :
    ∀ (fuel : ℕ) (queue : List α) (count : ℕ),
      (queue.map size).sum ≤ fuel →
      (∃ q ∈ queue, Descends children q x) →
      (∀ y ∈ cuts children counts limit fuel queue count,
        Descends children y x → y = x) →
      limit ≤ count + rank counts (order children fuel queue) x →
      x ∈ cuts children counts limit fuel queue count := by
  intro fuel
  induction fuel with
  | zero =>
      rintro queue count hfuel ⟨q, hq, -⟩ _ _
      have hpos := hforest.size_children q
      have hle := List.single_le_sum (fun _ _ => Nat.zero_le _) _
        (List.mem_map_of_mem (f := size) hq)
      omega
  | succ fuel ih =>
      rintro queue count hfuel ⟨q, hq, hqx⟩ hcut hrank
      rcases queue with _ | ⟨a, rest⟩
      · cases hq
      have hsize := size_expand hforest a rest
      have hbelow : a ≠ x → ∃ q ∈ rest ++ children a,
          Descends children q x := by
        intro hne
        rcases List.mem_cons.1 hq with rfl | hrest
        · rcases hqx.cases_head with heq | ⟨b, hb, hbx⟩
          · exact absurd heq hne
          · exact ⟨b, List.mem_append_right rest hb, hbx⟩
        · exact ⟨q, List.mem_append_left _ hrest, hqx⟩
      rw [order, rank] at hrank
      rw [cuts] at hcut ⊢
      by_cases heq : a = x
      · subst heq
        rw [if_pos hcounts, if_pos rfl] at hrank
        rw [if_pos hcounts, if_pos (by omega)]
        exact List.mem_cons_self
      rw [if_neg heq] at hrank
      by_cases hca : counts a = true
      · rw [if_pos hca] at hcut hrank ⊢
        by_cases hlimit : limit ≤ count + 1
        · rw [if_pos hlimit] at hcut ⊢
          have hnot : ¬ Descends children a x := fun hax =>
            heq (hcut a List.mem_cons_self hax)
          have hrest : q ∈ rest := by
            rcases List.mem_cons.1 hq with rfl | hrest
            · exact absurd hqx hnot
            · exact hrest
          refine List.mem_cons_of_mem a (ih rest (count + 1) ?_
            ⟨q, hrest, hqx⟩ ?_ (by omega))
          · rw [List.map_cons, List.sum_cons] at hfuel
            have hpos := hforest.size_children a
            omega
          · intro y hy
            exact hcut y (List.mem_cons_of_mem a hy)
        · rw [if_neg hlimit] at hcut ⊢
          exact ih _ (count + 1) (by omega) (hbelow heq) hcut (by omega)
      · rw [if_neg hca] at hcut hrank ⊢
        exact ih _ count (by omega) (hbelow heq) hcut (by omega)

/-- Nothing above a node is cut if and only if all counting nodes above it have
a rank below the limit. -/
theorem not_mem_cuts_iff_rank (hforest : Forest children size) {root x : α}
    {fuel : ℕ} (hfuel : size root ≤ fuel) :
    (∀ y, Descends children root y → Descends children y x → y ≠ x →
        y ∉ cuts children counts limit fuel [root] 0) ↔
      ∀ y, Descends children root y → Descends children y x → y ≠ x →
        counts y = true →
        rank counts (order children fuel [root]) y < limit := by
  have hapart : Apart children [root] := List.pairwise_singleton _ _
  constructor
  · intro h y hroot hyx hne hcounts
    by_contra hlimit
    refine h y hroot hyx hne (mem_cuts_of_rank hforest hcounts fuel [root] 0
      (by simpa using hfuel) ⟨root, List.mem_singleton.2 rfl, hroot⟩ ?_
      (by omega))
    intro z hz hzy
    by_contra hzne
    obtain ⟨-, ⟨q, hq, hqz⟩, -⟩ :=
      rank_of_mem_cuts hforest fuel [root] 0 hapart hz
    rw [List.mem_singleton.1 hq] at hqz
    have hzx : z ≠ x := by
      rintro rfl
      exact hzne (hforest.antisymm hzy hyx)
    exact h z hqz (hzy.trans hyx) hzx hz
  · intro h y hroot hyx hne hmem
    obtain ⟨hcounts, -, hrank⟩ :=
      rank_of_mem_cuts hforest fuel [root] 0 hapart hmem
    have hlt := h y hroot hyx hne hcounts
    omega

end Rank

end Collabswarm.BreadthFirst
