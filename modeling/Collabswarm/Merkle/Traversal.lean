import Collabswarm.Merkle.ChangeTree

/-!
# Depth-first walks with a set of marked CIDs

All walks over a change tree visit the entries of a map in order.  At an entry
they mark its CID and go on below it, unless the CID is marked or the node does
not open.  The positions where a walk goes on, the leading ones, are determined
by the tree alone: the parent is a leading position, the node opens, and no
leading position before it has the same CID.
-/

namespace Collabswarm.Merkle

variable {C L : Type}

section Visit

variable [DecidableEq C] (opens : ChangeTree C L → Bool)

mutual

/-- The visit of an entry: the marked CIDs after it, and the entries that were
visited. -/
def visitNode (cid : C) (marked : Finset C) :
    ChangeTree C L → Finset C × List (Entry C L)
  | .node data children =>
      if opens (.node data children) = true ∧ cid ∉ marked then
        let below := visitChildren (insert cid marked) children
        (below.1, (cid, .node data children) :: below.2)
      else (marked, [(cid, .node data children)])

/-- The visit of a `children` field. -/
def visitChildren (marked : Finset C) :
    ChildMap C L → Finset C × List (Entry C L)
  | .absent => (marked, [])
  | .deferred => (marked, [])
  | .present entries => visitEntries marked entries

/-- The visit of a list of entries. -/
def visitEntries (marked : Finset C) :
    ChildEntries C L → Finset C × List (Entry C L)
  | .nil => (marked, [])
  | .cons cid child rest =>
      let first := visitNode cid marked child
      let others := visitEntries first.1 rest
      (others.1, first.2 ++ others.2)

end

end Visit

/-! ## Leading positions -/

/-- The position is one of the outermost, or its parent is in the set. -/
def Exposed (E : Set (List ℕ)) (p : List ℕ) : Prop :=
  p.dropLast = [] ∨ p.dropLast ∈ E

/-- A walk that has gone on at the positions of `E` goes on at this one. -/
def LeadsAt (opens : ChangeTree C L → Bool) (marked : Finset C)
    (forest : List (Entry C L)) (E : Set (List ℕ)) (p : List ℕ) : Prop :=
  Exposed E p ∧ ∃ c n, entryAt forest p = some (c, n) ∧ opens n = true ∧
    c ∉ marked ∧ ∀ q ∈ E, q < p → ∀ m, entryAt forest q ≠ some (c, m)

/-- The set of the leading positions. -/
def Leading (opens : ChangeTree C L → Bool) (marked : Finset C)
    (forest : List (Entry C L)) (E : Set (List ℕ)) : Prop :=
  ∀ p, p ∈ E ↔ LeadsAt opens marked forest E p

/-- The positions of `E` below the first entry. -/
def belowFirst (E : Set (List ℕ)) : Set (List ℕ) :=
  {p | p ≠ [] ∧ 0 :: p ∈ E}

/-- The positions of `E` behind the first entry. -/
def afterFirst (E : Set (List ℕ)) : Set (List ℕ) :=
  {p | ∃ i q, p = i :: q ∧ (i + 1) :: q ∈ E}

section Parts

variable {opens : ChangeTree C L → Bool} {marked : Finset C}
  {forest rest : List (Entry C L)} {e : Entry C L} {E : Set (List ℕ)}

theorem exposed_singleton (i : ℕ) : Exposed E [i] := Or.inl rfl

theorem exposed_zero_cons {p : List ℕ} (hp : p ≠ []) :
    Exposed E (0 :: p) ↔ [0] ∈ E ∧ p.dropLast = [] ∨
      p.dropLast ∈ belowFirst E := by
  rw [Exposed, List.dropLast_cons_of_ne_nil hp, belowFirst, Set.mem_ofPred_eq]
  by_cases hparent : p.dropLast = []
  · simp [hparent]
  · simp [hparent]

theorem exposed_succ_cons {i : ℕ} {q : List ℕ} :
    Exposed E ((i + 1) :: q) ↔ Exposed (afterFirst E) (i :: q) := by
  by_cases hq : q = []
  · subst hq
    exact iff_of_true (exposed_singleton _) (exposed_singleton _)
  · rw [Exposed, Exposed, List.dropLast_cons_of_ne_nil hq,
      List.dropLast_cons_of_ne_nil hq]
    simp [afterFirst]

theorem leadsAt_zero (hE : [] ∉ E) :
    LeadsAt opens marked (e :: rest) E [0] ↔
      opens e.2 = true ∧ e.1 ∉ marked := by
  constructor
  · rintro ⟨-, c, n, hentry, hopens, hmarked, -⟩
    cases hentry
    exact ⟨hopens, hmarked⟩
  · rintro ⟨hopens, hmarked⟩
    refine ⟨exposed_singleton 0, e.1, e.2, rfl, hopens, hmarked, ?_⟩
    intro q hq hlt
    match q with
    | [] => exact absurd hq hE
    | j :: q => simp [List.cons_lt_cons_iff] at hlt

variable [DecidableEq C]

theorem leadsAt_zero_cons (hE : [] ∉ E) (hfirst : [0] ∈ E) {p : List ℕ}
    (hp : p ≠ []) :
    LeadsAt opens marked (e :: rest) E (0 :: p) ↔
      LeadsAt opens (insert e.1 marked) e.2.entries (belowFirst E) p := by
  have hexposed : Exposed E (0 :: p) ↔ Exposed (belowFirst E) p := by
    rw [exposed_zero_cons hp, Exposed, and_iff_right hfirst]
  rw [LeadsAt, LeadsAt, hexposed]
  apply and_congr_right
  intro _
  constructor
  · rintro ⟨c, n, hentry, hopens, hmarked, hbefore⟩
    rw [entryAt_zero_cons _ _ hp] at hentry
    refine ⟨c, n, hentry, hopens, ?_, ?_⟩
    · intro hc
      rcases Finset.mem_insert.1 hc with rfl | hc
      · refine hbefore [0] hfirst ?_ e.2 rfl
        obtain ⟨j, p, rfl⟩ := List.exists_cons_of_ne_nil hp
        simp
      · exact hmarked hc
    · rintro q ⟨hq, hqE⟩ hlt m hm
      refine hbefore (0 :: q) hqE (List.cons_lt_cons_iff.2 (Or.inr
        ⟨rfl, hlt⟩)) m ?_
      rw [entryAt_zero_cons _ _ hq, hm]
  · rintro ⟨c, n, hentry, hopens, hmarked, hbefore⟩
    refine ⟨c, n, ?_, hopens, fun hc => hmarked (Finset.mem_insert_of_mem hc),
      ?_⟩
    · rw [entryAt_zero_cons _ _ hp, hentry]
    · intro q hqE hlt m hm
      match q with
      | [] => exact hE hqE
      | [0] =>
          rw [entryAt_zero] at hm
          cases hm
          exact hmarked (Finset.mem_insert_self _ _)
      | 0 :: j :: q =>
          rw [entryAt_zero_cons _ _ (by simp)] at hm
          refine hbefore (j :: q) ⟨by simp, hqE⟩ ?_ m hm
          simpa [List.cons_lt_cons_iff] using hlt
      | (i + 1) :: q => simp [List.cons_lt_cons_iff] at hlt

omit [DecidableEq C] in
theorem leadsAt_succ_cons (hE : [] ∉ E) {marked' : Finset C}
    (hmarked : ∀ c, c ∈ marked' ↔ c ∈ marked ∨
      ∃ p m, 0 :: p ∈ E ∧ entryAt (e :: rest) (0 :: p) = some (c, m))
    (i : ℕ) (q : List ℕ) :
    LeadsAt opens marked (e :: rest) E ((i + 1) :: q) ↔
      LeadsAt opens marked' rest (afterFirst E) (i :: q) := by
  rw [LeadsAt, LeadsAt, exposed_succ_cons, entryAt_succ]
  apply and_congr_right
  intro _
  constructor
  · rintro ⟨c, n, hentry, hopens, hc, hbefore⟩
    refine ⟨c, n, hentry, hopens, ?_, ?_⟩
    · intro hc'
      rcases (hmarked c).1 hc' with hc' | ⟨p, m, hp, hm⟩
      · exact hc hc'
      · exact hbefore (0 :: p) hp (by simp [List.cons_lt_cons_iff]) m hm
    · rintro _ ⟨j, r, rfl, hr⟩ hlt m hm
      refine hbefore ((j + 1) :: r) hr ?_ m (by rwa [entryAt_succ])
      simpa [List.cons_lt_cons_iff] using hlt
  · rintro ⟨c, n, hentry, hopens, hc, hbefore⟩
    refine ⟨c, n, hentry, hopens, fun hc' => hc ((hmarked c).2 (Or.inl hc')),
      ?_⟩
    intro r hr hlt m hm
    match r with
    | [] => exact hE hr
    | 0 :: r => exact hc ((hmarked c).2 (Or.inr ⟨r, m, hr, hm⟩))
    | (j + 1) :: r =>
        rw [entryAt_succ] at hm
        refine hbefore (j :: r) ⟨j, r, rfl, hr⟩ ?_ m hm
        simpa [List.cons_lt_cons_iff] using hlt

omit [DecidableEq C] in
theorem Leading.not_nil (h : Leading opens marked forest E) : [] ∉ E := by
  intro hmem
  obtain ⟨-, c, n, hentry, -⟩ := (h []).1 hmem
  cases hentry

theorem afterFirst_iff {i : ℕ} {q : List ℕ} :
    i :: q ∈ afterFirst E ↔ (i + 1) :: q ∈ E := by
  simp [afterFirst]

omit [DecidableEq C] in
theorem Leading.zero_iff (h : Leading opens marked (e :: rest) E) :
    [0] ∈ E ↔ opens e.2 = true ∧ e.1 ∉ marked :=
  (h [0]).trans (leadsAt_zero h.not_nil)

/-- Below the first entry, if the walk goes on there. -/
theorem Leading.below (h : Leading opens marked (e :: rest) E)
    (hfirst : [0] ∈ E) :
    Leading opens (insert e.1 marked) e.2.entries (belowFirst E) := by
  intro p
  by_cases hp : p = []
  · subst hp
    exact iff_of_false (by simp [belowFirst]) (by simp [LeadsAt])
  · rw [← leadsAt_zero_cons h.not_nil hfirst hp, ← h (0 :: p), belowFirst,
      Set.mem_ofPred_eq, and_iff_right hp]

omit [DecidableEq C] in
theorem Leading.not_below (h : Leading opens marked forest E)
    (hfirst : [0] ∉ E) (p : List ℕ) : 0 :: p ∉ E := by
  induction p using List.reverseRecOn with
  | nil => exact hfirst
  | append_singleton p i ih =>
      intro hmem
      obtain ⟨hexposed, -⟩ := (h _).1 hmem
      rw [Exposed, ← List.cons_append, List.dropLast_concat] at hexposed
      exact ih (hexposed.resolve_left (by simp))

omit [DecidableEq C] in
/-- Behind the first entry. -/
theorem Leading.after (h : Leading opens marked (e :: rest) E)
    {marked' : Finset C}
    (hmarked : ∀ c, c ∈ marked' ↔ c ∈ marked ∨
      ∃ p m, 0 :: p ∈ E ∧ entryAt (e :: rest) (0 :: p) = some (c, m)) :
    Leading opens marked' rest (afterFirst E) := by
  intro p
  match p with
  | [] => exact iff_of_false (by simp [afterFirst]) (by simp [LeadsAt])
  | i :: q =>
      rw [afterFirst_iff, h ((i + 1) :: q), leadsAt_succ_cons h.not_nil hmarked]

/-- The leading positions of a list are the first entry, if it opens and is not
marked, those below it, and those behind it. -/
theorem leading_cons {marked' : Finset C}
    (hmarked : ∀ c, c ∈ marked' ↔ c ∈ marked ∨
      ∃ p m, 0 :: p ∈ E ∧ entryAt (e :: rest) (0 :: p) = some (c, m))
    (hE : [] ∉ E) (hfirst : [0] ∈ E ↔ opens e.2 = true ∧ e.1 ∉ marked)
    (hbelow : [0] ∈ E → Leading opens (insert e.1 marked) e.2.entries
      (belowFirst E))
    (hnone : [0] ∉ E → ∀ p, 0 :: p ∉ E)
    (hafter : Leading opens marked' rest (afterFirst E)) :
    Leading opens marked (e :: rest) E := by
  intro p
  match p with
  | [] => exact iff_of_false hE (by simp [LeadsAt])
  | [0] => exact hfirst.trans (leadsAt_zero hE).symm
  | 0 :: j :: q =>
      by_cases h0 : [0] ∈ E
      · rw [leadsAt_zero_cons hE h0 (by simp), ← hbelow h0 (j :: q)]
        simp [belowFirst]
      · apply iff_of_false (hnone h0 _)
        rintro ⟨hexposed, -⟩
        rcases (exposed_zero_cons (by simp)).1 hexposed with ⟨h0', -⟩ | hq
        · exact h0 h0'
        · exact hnone h0 _ hq.2
  | (i + 1) :: q =>
      rw [leadsAt_succ_cons hE hmarked, ← hafter (i :: q), afterFirst_iff]

omit [DecidableEq C] in
/-- Of the exposed occurrences of an unmarked CID that open, one is leading. -/
theorem Leading.exists_leading (h : Leading opens marked forest E)
    {p : List ℕ} {c : C} {n : ChangeTree C L} (hexposed : Exposed E p)
    (hentry : entryAt forest p = some (c, n)) (hopens : opens n = true)
    (hmarked : c ∉ marked) :
    ∃ q ∈ E, ∃ m, entryAt forest q = some (c, m) ∧ opens m = true := by
  by_cases hp : p ∈ E
  · exact ⟨p, hp, n, hentry, hopens⟩
  · have hnot : ¬LeadsAt opens marked forest E p := fun hp' => hp ((h p).2 hp')
    have hearlier : ∃ q ∈ E, q < p ∧ ∃ m, entryAt forest q = some (c, m) := by
      by_contra hnone
      apply hnot
      refine ⟨hexposed, c, n, hentry, hopens, hmarked, ?_⟩
      intro q hq hlt m hm
      exact hnone ⟨q, hq, hlt, m, hm⟩
    obtain ⟨q, hq, -, m, hm⟩ := hearlier
    obtain ⟨-, c', m', hm', hopens', -⟩ := (h q).1 hq
    obtain ⟨rfl, rfl⟩ := Prod.mk.inj (Option.some.inj (hm.symm.trans hm'))
    exact ⟨q, hq, m, hm, hopens'⟩

omit [DecidableEq C] in
/-- The children of a leading position are exposed. -/
theorem exposed_concat {p : List ℕ} (hp : p ∈ E) (i : ℕ) :
    Exposed E (p ++ [i]) := by
  rw [Exposed, List.dropLast_concat]
  exact Or.inr hp

omit [DecidableEq C] in
/-- The children of a leading position stand at exposed positions. -/
theorem exists_exposed_of_mem (h : Leading opens marked forest E)
    {p : List ℕ} (hp : p ∈ E) {c c' : C} {n n' : ChangeTree C L}
    (hentry : entryAt forest p = some (c, n)) (hmem : (c', n') ∈ n.entries) :
    ∃ q, Exposed E q ∧ entryAt forest q = some (c', n') := by
  obtain ⟨i, hi⟩ := List.getElem?_of_mem hmem
  have hne : p ≠ [] := by
    rintro rfl
    exact h.not_nil hp
  refine ⟨p ++ [i], exposed_concat hp i, ?_⟩
  rw [entryAt_concat _ hne, hentry]
  exact hi

end Parts

/-! ## What a walk visits -/

section Spec

variable [DecidableEq C] {opens : ChangeTree C L → Bool}

theorem visitNode_eq (cid : C) (marked : Finset C) (n : ChangeTree C L) :
    visitNode opens cid marked n =
      if opens n = true ∧ cid ∉ marked then
        ((visitEntries opens (insert cid marked) n.children.toEntries).1,
          (cid, n) ::
            (visitEntries opens (insert cid marked) n.children.toEntries).2)
      else (marked, [(cid, n)]) := by
  obtain ⟨data, children⟩ := n
  rw [visitNode]
  cases children <;> rfl

omit [DecidableEq C] in
theorem sizeOf_toEntries_lt (n : ChangeTree C L) :
    sizeOf n.children.toEntries < sizeOf n + 1 := by
  obtain ⟨data, children⟩ := n
  cases children <;> simp [ChangeTree.children, ChildMap.toEntries]
  omega

/-- What a walk visits and marks, given its leading positions. -/
structure Walked (marked : Finset C) (forest : List (Entry C L))
    (E : Set (List ℕ)) (result : Finset C × List (Entry C L)) : Prop where
  visited : ∀ e, e ∈ result.2 ↔ ∃ p, Exposed E p ∧ entryAt forest p = some e
  marked : ∀ c, c ∈ result.1 ↔ c ∈ marked ∨
    ∃ p ∈ E, ∃ n, entryAt forest p = some (c, n)

/-- The visit of the first entry. -/
theorem walked_visitNode {cid : C} {child : ChangeTree C L}
    (rest : List (Entry C L)) {marked : Finset C} {E : Set (List ℕ)}
    (hfirst : [0] ∈ E ↔ opens child = true ∧ cid ∉ marked)
    (hnone : [0] ∉ E → ∀ p, 0 :: p ∉ E)
    (hbelow : [0] ∈ E → Walked (insert cid marked) child.entries
      (belowFirst E) (visitEntries opens (insert cid marked)
        child.children.toEntries)) :
    (∀ e, e ∈ (visitNode opens cid marked child).2 ↔
      ∃ p, Exposed E (0 :: p) ∧
        entryAt ((cid, child) :: rest) (0 :: p) = some e) ∧
    ∀ c, c ∈ (visitNode opens cid marked child).1 ↔ c ∈ marked ∨
      ∃ p m, 0 :: p ∈ E ∧
        entryAt ((cid, child) :: rest) (0 :: p) = some (c, m) := by
  rw [visitNode_eq]
  by_cases h0 : [0] ∈ E
  · rw [if_pos (hfirst.1 h0)]
    have hwalked := hbelow h0
    constructor
    · intro e
      rw [List.mem_cons, hwalked.visited]
      constructor
      · rintro (rfl | ⟨p, hexposed, hentry⟩)
        · exact ⟨[], exposed_singleton 0, rfl⟩
        · have hp : p ≠ [] := by
            rintro rfl
            cases hentry
          refine ⟨p, (exposed_zero_cons hp).2 ?_, ?_⟩
          · exact hexposed.imp_left fun hnil => ⟨h0, hnil⟩
          · rwa [entryAt_zero_cons _ _ hp]
      · rintro ⟨p, hexposed, hentry⟩
        by_cases hp : p = []
        · subst hp
          exact Or.inl (Option.some.inj hentry).symm
        · rw [entryAt_zero_cons _ _ hp] at hentry
          refine Or.inr ⟨p, ?_, hentry⟩
          exact ((exposed_zero_cons hp).1 hexposed).imp_left And.right
    · intro c
      rw [hwalked.marked, Finset.mem_insert]
      constructor
      · rintro ((rfl | hc) | ⟨p, ⟨hp, hmem⟩, m, hentry⟩)
        · exact Or.inr ⟨[], child, h0, rfl⟩
        · exact Or.inl hc
        · exact Or.inr ⟨p, m, hmem, by rwa [entryAt_zero_cons _ _ hp]⟩
      · rintro (hc | ⟨p, m, hmem, hentry⟩)
        · exact Or.inl (Or.inr hc)
        · by_cases hp : p = []
          · subst hp
            cases hentry
            exact Or.inl (Or.inl rfl)
          · rw [entryAt_zero_cons _ _ hp] at hentry
            exact Or.inr ⟨p, ⟨hp, hmem⟩, m, hentry⟩
  · rw [if_neg fun h => h0 (hfirst.2 h)]
    constructor
    · intro e
      rw [List.mem_singleton]
      constructor
      · rintro rfl
        exact ⟨[], exposed_singleton 0, rfl⟩
      · rintro ⟨p, hexposed, hentry⟩
        by_cases hp : p = []
        · subst hp
          exact (Option.some.inj hentry).symm
        · rcases (exposed_zero_cons hp).1 hexposed with ⟨h0', -⟩ | hparent
          · exact absurd h0' h0
          · exact absurd hparent.2 (hnone h0 _)
    · intro c
      refine ⟨Or.inl, ?_⟩
      rintro (hc | ⟨p, m, hmem, -⟩)
      · exact hc
      · exact absurd hmem (hnone h0 p)

/-- A walk visits the entries at the exposed positions. -/
theorem walked_visitEntries :
    ∀ (entries : ChildEntries C L) (marked : Finset C) (E : Set (List ℕ)),
      Leading opens marked entries.toList E →
      Walked marked entries.toList E (visitEntries opens marked entries)
  | .nil, marked, E, h => by
      constructor
      · simp [visitEntries, ChildEntries.toList]
      · simp [visitEntries, ChildEntries.toList]
  | .cons cid child rest, marked, E, h => by
      have hsize := sizeOf_toEntries_lt child
      obtain ⟨hvisited, hmarked⟩ := walked_visitNode rest.toList
        h.zero_iff h.not_below fun h0 =>
          walked_visitEntries child.children.toEntries _ _ (h.below h0)
      have hrest := walked_visitEntries rest _ _ (h.after hmarked)
      rw [visitEntries, ChildEntries.toList]
      constructor
      · intro e
        rw [List.mem_append, hvisited, hrest.visited]
        constructor
        · rintro (⟨p, hexposed, hentry⟩ | ⟨p, hexposed, hentry⟩)
          · exact ⟨0 :: p, hexposed, hentry⟩
          · match p with
            | [] => cases hentry
            | i :: q =>
                exact ⟨(i + 1) :: q, exposed_succ_cons.2 hexposed,
                  by rwa [entryAt_succ]⟩
        · rintro ⟨p, hexposed, hentry⟩
          match p with
          | [] => cases hentry
          | 0 :: p => exact Or.inl ⟨p, hexposed, hentry⟩
          | (i + 1) :: q =>
              rw [entryAt_succ] at hentry
              exact Or.inr ⟨i :: q, exposed_succ_cons.1 hexposed, hentry⟩
      · intro c
        rw [hrest.marked, hmarked]
        constructor
        · rintro ((hc | ⟨p, m, hmem, hentry⟩) | ⟨_, ⟨i, q, rfl, hmem⟩, m,
            hentry⟩)
          · exact Or.inl hc
          · exact Or.inr ⟨0 :: p, hmem, m, hentry⟩
          · exact Or.inr ⟨(i + 1) :: q, hmem, m, by rwa [entryAt_succ]⟩
        · rintro (hc | ⟨p, hmem, m, hentry⟩)
          · exact Or.inl (Or.inl hc)
          · match p with
            | [] => cases hentry
            | 0 :: p => exact Or.inl (Or.inr ⟨p, m, hmem, hentry⟩)
            | (i + 1) :: q =>
                rw [entryAt_succ] at hentry
                exact Or.inr ⟨i :: q, ⟨i, q, rfl, hmem⟩, m, hentry⟩
termination_by entries => sizeOf entries

/-- The leading positions exist. -/
theorem exists_leading (opens : ChangeTree C L → Bool) :
    ∀ (entries : ChildEntries C L) (marked : Finset C),
      ∃ E, Leading opens marked entries.toList E
  | .nil, marked => by
      refine ⟨∅, fun p => iff_of_false (Set.notMem_empty p) ?_⟩
      rintro ⟨-, c, n, hentry, -⟩
      simp [ChildEntries.toList] at hentry
  | .cons cid child rest, marked => by
      have hsize := sizeOf_toEntries_lt child
      obtain ⟨E₁, h₁⟩ :=
        exists_leading opens child.children.toEntries (insert cid marked)
      obtain ⟨E₂, h₂⟩ :=
        exists_leading opens rest (visitNode opens cid marked child).1
      let E : Set (List ℕ) := {p | match p with
        | [] => False
        | 0 :: q => (opens child = true ∧ cid ∉ marked) ∧ (q = [] ∨ q ∈ E₁)
        | (i + 1) :: q => i :: q ∈ E₂}
      have hfirst : [0] ∈ E ↔ opens child = true ∧ cid ∉ marked := by
        simp [E]
      have hnone : [0] ∉ E → ∀ p, 0 :: p ∉ E :=
        fun h0 p hp => h0 (hfirst.2 hp.1)
      have hbelow : [0] ∈ E → belowFirst E = E₁ := by
        intro h0
        ext p
        constructor
        · rintro ⟨hp, -, hmem⟩
          exact hmem.resolve_left hp
        · intro hp
          refine ⟨?_, hfirst.1 h0, Or.inr hp⟩
          rintro rfl
          exact h₁.not_nil hp
      have hafter : afterFirst E = E₂ := by
        ext p
        constructor
        · rintro ⟨i, q, rfl, hmem⟩
          exact hmem
        · intro hp
          match p with
          | [] => exact absurd hp h₂.not_nil
          | i :: q => exact ⟨i, q, rfl, hp⟩
      obtain ⟨-, hmarked⟩ := walked_visitNode rest.toList hfirst
        hnone fun h0 => by
          rw [hbelow h0]
          exact walked_visitEntries _ _ _ h₁
      refine ⟨E, leading_cons hmarked id hfirst ?_ hnone (hafter ▸ h₂)⟩
      intro h0
      rw [hbelow h0]
      exact h₁
termination_by entries => sizeOf entries

end Spec

end Collabswarm.Merkle
