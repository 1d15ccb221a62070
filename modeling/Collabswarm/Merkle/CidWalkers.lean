import Collabswarm.Merkle.Walkers

/-!
# Which CIDs the walkers see

`collectTreeCIDs` takes every node from its queue, but the depth-first walkers
go on below the first visited occurrence of a CID only.  They see the whole
tree exactly if every CID in it is the root or stands below a leading position.
-/

namespace Collabswarm.Merkle

open FieldOrder (touch)

variable {C L : Type}

/-- A CID that is the root or a key of a map of children at any depth. -/
def InTree (rootId : Option C) (root : ChangeTree C L) (c : C) : Prop :=
  rootId = some c ∨ ∃ n, Occurs root.entries c n

/-! ## The scans -/

section Scans

variable [DecidableEq C]

theorem mem_foldl_touch {α : Type} (f : α → C) (c : C) (es : List α) :
    ∀ cids : List C, c ∈ es.foldl (fun cids e => touch cids (f e)) cids ↔
      c ∈ cids ∨ ∃ e ∈ es, f e = c := by
  induction es with
  | nil =>
      intro cids
      simp
  | cons e es ih =>
      intro cids
      rw [List.foldl_cons, ih, FieldOrder.mem_touch]
      simp [eq_comm, or_assoc]

theorem nodup_foldl_touch {α : Type} (f : α → C) (es : List α) :
    ∀ {cids : List C}, cids.Nodup →
      (es.foldl (fun cids e => touch cids (f e)) cids).Nodup := by
  induction es with
  | nil =>
      intro cids h
      exact h
  | cons e es ih =>
      intro cids h
      exact ih (FieldOrder.nodup_touch h (f e))

theorem touch_touch (cids : List C) (c : C) :
    touch (touch cids c) c = touch cids c := by
  have hmem : c ∈ touch cids c := FieldOrder.mem_touch.2 (Or.inr rfl)
  rw [touch, if_pos hmem]

theorem collectAllCidsInTree_eq [Bot C] (rootId : Option C)
    (root : ChangeTree C L) :
    collectAllCidsInTree rootId (some root) =
      (scanVisits rootId root).foldl (fun cids e => touch cids e.1)
        rootId.toList := by
  rw [collectAllCidsInTree, scan_eq fun c cids => touch_touch cids c]
  cases rootId <;> rfl

theorem mem_collectAllCidsInTree [Bot C] {rootId : Option C}
    {root : ChangeTree C L} {c : C} :
    c ∈ collectAllCidsInTree rootId (some root) ↔
      rootId = some c ∨ ∃ e ∈ scanVisits rootId root, e.1 = c := by
  rw [collectAllCidsInTree_eq, mem_foldl_touch, Option.mem_toList]

theorem nodup_collectAllCidsInTree [Bot C] (rootId : Option C)
    (root : ChangeTree C L) :
    (collectAllCidsInTree rootId (some root)).Nodup := by
  rw [collectAllCidsInTree_eq]
  apply nodup_foldl_touch
  cases rootId <;> simp

theorem treeContainsCid_iff [Bot C] {rootId : Option C}
    {root : ChangeTree C L} {targetCid : Option C} :
    treeContainsCid rootId (some root) targetCid = true ↔
      ∃ c, targetCid = some c ∧ c ≠ ⊥ ∧
        (rootId = some c ∨ ∃ e ∈ scanVisits rootId root, e.1 = c) := by
  cases targetCid with
  | none => simp [treeContainsCid]
  | some target =>
      unfold treeContainsCid
      dsimp only
      by_cases hempty : target = ⊥
      · simp [hempty]
      by_cases hroot : rootId = some target
      · simp [hempty, hroot]
      rw [if_neg hempty, if_neg hroot, containsWalk_iff]
      constructor
      · intro h
        exact ⟨target, rfl, hempty, Or.inr h⟩
      · rintro ⟨c, heq, -, h⟩
        cases heq
        exact h.resolve_left hroot

/-- The scans visit the exposed positions. -/
theorem mem_scanVisits {rootId : Option C} {root : ChangeTree C L}
    {E : Set (List ℕ)}
    (hE : Leading (fun _ => true) rootId.toFinset root.entries E)
    {e : Entry C L} :
    e ∈ scanVisits rootId root ↔
      ∃ p, Exposed E p ∧ entryAt root.entries p = some e :=
  (walked_visitEntries root.children.toEntries _ _ hE).visited e

theorem inTree_of_mem_scanVisits {rootId : Option C} {root : ChangeTree C L}
    {e : Entry C L} (he : e ∈ scanVisits rootId root) :
    InTree rootId root e.1 := by
  obtain ⟨E, hE⟩ := exists_leading (fun _ => true) root.children.toEntries
    rootId.toFinset
  obtain ⟨p, -, hentry⟩ := (mem_scanVisits hE).1 he
  exact Or.inr ⟨e.2, occurs_iff_entryAt.2 ⟨p, hentry⟩⟩

end Scans

/-! ## The breadth-first loop -/

section BreadthFirst

theorem size_toEntries (n : ChangeTree C L) :
    n.size = n.children.toEntries.size + 1 := by
  obtain ⟨data, children⟩ := n
  cases children <;> simp [ChangeTree.size, ChildMap.size, ChangeTree.children,
    ChildMap.toEntries, ChildEntries.size, Nat.add_comm]

theorem sum_size_toList (entries : ChildEntries C L) :
    (entries.toList.map fun e => e.2.size).sum = entries.size := by
  cases entries with
  | nil => rfl
  | cons cid child rest =>
      rw [ChildEntries.toList, List.map_cons, List.sum_cons,
        sum_size_toList rest, ChildEntries.size]

variable [DecidableEq C]

/-- The loop adds what occurs below the nodes in its queue. -/
theorem mem_collectLoop {c : C} :
    ∀ (fuel : ℕ) (cids : List C) (queue : List (ChangeTree C L)),
      (queue.map ChangeTree.size).sum ≤ fuel →
      (c ∈ collectLoop fuel cids queue ↔
        c ∈ cids ∨ ∃ n ∈ queue, ∃ m, Occurs n.entries c m) := by
  intro fuel
  induction fuel with
  | zero =>
      intro cids queue hfuel
      cases queue with
      | nil => simp [collectLoop]
      | cons n queue =>
          have hsize := size_toEntries n
          rw [List.map_cons, List.sum_cons] at hfuel
          omega
  | succ fuel ih =>
      intro cids queue hfuel
      cases queue with
      | nil => simp [collectLoop]
      | cons n queue =>
          have hsize := size_toEntries n
          have hentries : (n.entries.map fun e => e.2.size).sum =
              n.children.toEntries.size := sum_size_toList _
          have hfuel' : ((queue ++ n.entries.map Prod.snd).map
              ChangeTree.size).sum ≤ fuel := by
            rw [List.map_append, List.sum_append, List.map_map]
            rw [List.map_cons, List.sum_cons] at hfuel
            have hmap : (n.entries.map (ChangeTree.size ∘ Prod.snd)).sum =
                n.children.toEntries.size := hentries
            omega
          rw [collectLoop, ih _ _ hfuel', mem_foldl_touch]
          constructor
          · rintro ((hc | ⟨e, he, rfl⟩) | ⟨m, hm, k, hk⟩)
            · exact Or.inl hc
            · exact Or.inr ⟨n, List.mem_cons_self, e.2,
                Reached.root he not_false⟩
            · rcases List.mem_append.1 hm with hm | hm
              · exact Or.inr ⟨m, List.mem_cons_of_mem _ hm, k, hk⟩
              · obtain ⟨e, he, rfl⟩ := List.mem_map.1 hm
                exact Or.inr ⟨n, List.mem_cons_self, k,
                  occurs_iff_mem_or_below.2 (Or.inr ⟨e, he, hk⟩)⟩
          · rintro (hc | ⟨m, hm, k, hk⟩)
            · exact Or.inl (Or.inl hc)
            · rcases List.mem_cons.1 hm with rfl | hm
              · rcases occurs_iff_mem_or_below.1 hk with hmem | ⟨e, he, hk⟩
                · exact Or.inl (Or.inr ⟨_, hmem, rfl⟩)
                · exact Or.inr ⟨e.2, List.mem_append_right _
                    (List.mem_map_of_mem he), k, hk⟩
              · exact Or.inr ⟨m, List.mem_append_left _ hm, k, hk⟩

/-- `collectTreeCIDs` returns all CIDs of the tree. -/
theorem mem_collectTreeCIDs {rootCID c : C} {root : ChangeTree C L} :
    c ∈ collectTreeCIDs rootCID root ↔ InTree (some rootCID) root c := by
  rw [collectTreeCIDs, mem_collectLoop _ _ _ (by simp)]
  simp [InTree, eq_comm]

end BreadthFirst

/-! ## When the walkers see the whole tree -/

section Whole

variable [DecidableEq C]

/-- Every CID is the root, or is at the outermost level, or stands below a
leading position of a walk that goes on at every node. -/
def EveryCidExposed (rootId : Option C) (root : ChangeTree C L) : Prop :=
  ∃ E, Leading (fun _ => true) rootId.toFinset root.entries E ∧
    ∀ c n, Occurs root.entries c n → rootId = some c ∨
      ∃ p m, Exposed E p ∧ entryAt root.entries p = some (c, m)

/-- The walkers see the whole tree. -/
structure WalkersSeeTree [Bot C] (rootId : Option C) (root : ChangeTree C L) :
    Prop where
  distinct : (collectAllCidsInTree rootId (some root)).Nodup
  collected : ∀ c, c ∈ collectAllCidsInTree rootId (some root) ↔
    InTree rootId root c
  breadthFirst : ∀ rootCID, rootId = some rootCID →
    ∀ c, c ∈ collectAllCidsInTree rootId (some root) ↔
      c ∈ collectTreeCIDs rootCID root
  contained : ∀ targetCid,
    treeContainsCid rootId (some root) targetCid = true ↔
      ∃ c, targetCid = some c ∧ c ≠ ⊥ ∧ InTree rootId root c

/-- The walkers see the whole tree if and only if every CID in it is the root
or is exposed. -/
theorem walkersSeeTree_iff [Bot C] (rootId : Option C)
    (root : ChangeTree C L) :
    WalkersSeeTree rootId root ↔ EveryCidExposed rootId root := by
  constructor
  · intro h
    obtain ⟨E, hE⟩ := exists_leading (fun _ => true) root.children.toEntries
      rootId.toFinset
    refine ⟨E, hE, fun c n hoccurs => ?_⟩
    rcases mem_collectAllCidsInTree.1 ((h.collected c).2 (Or.inr ⟨n, hoccurs⟩))
      with hroot | ⟨e, he, rfl⟩
    · exact Or.inl hroot
    · obtain ⟨p, hexposed, hentry⟩ := (mem_scanVisits hE).1 he
      exact Or.inr ⟨p, e.2, hexposed, hentry⟩
  · rintro ⟨E, hE, hexposed⟩
    have hseen : ∀ c, (rootId = some c ∨
        ∃ e ∈ scanVisits rootId root, e.1 = c) ↔ InTree rootId root c := by
      intro c
      constructor
      · rintro (hroot | ⟨e, he, rfl⟩)
        · exact Or.inl hroot
        · exact inTree_of_mem_scanVisits he
      · rintro (hroot | ⟨n, hoccurs⟩)
        · exact Or.inl hroot
        · apply (hexposed c n hoccurs).imp_right
          rintro ⟨p, m, hp, hentry⟩
          exact ⟨(c, m), (mem_scanVisits hE).2 ⟨p, hp, hentry⟩, rfl⟩
    have hcollected : ∀ c, c ∈ collectAllCidsInTree rootId (some root) ↔
        InTree rootId root c :=
      fun c => mem_collectAllCidsInTree.trans (hseen c)
    constructor
    · exact nodup_collectAllCidsInTree rootId root
    · exact hcollected
    · rintro rootCID rfl c
      rw [hcollected, mem_collectTreeCIDs]
    · intro targetCid
      rw [treeContainsCid_iff]
      simp only [hseen]

/-- They do if the occurrences of a CID have the same keys, as they have where
all subtrees are sent inline. -/
theorem everyCidExposed_of_keys {rootId : Option C} {root : ChangeTree C L}
    (hkeys : ∀ c n n',
      (rootId = some c ∧ n = root ∨ Occurs root.entries c n) →
      (rootId = some c ∧ n' = root ∨ Occurs root.entries c n') →
      ∀ k ∈ n.entries.map Prod.fst, k ∈ n'.entries.map Prod.fst) :
    EveryCidExposed rootId root := by
  obtain ⟨E, hE⟩ := exists_leading (fun _ => true) root.children.toEntries
    rootId.toFinset
  refine ⟨E, hE, ?_⟩
  intro c n hoccurs
  induction hoccurs with
  | @root c n hmem _ =>
      obtain ⟨i, hi⟩ := List.getElem?_of_mem hmem
      exact Or.inr ⟨[i], n, exposed_singleton i, hi⟩
  | @child c c' n n' hparent hmem _ ih =>
      have hkey : c' ∈ n.entries.map Prod.fst := List.mem_map_of_mem hmem
      by_cases hroot : rootId = some c
      · obtain ⟨⟨k, m⟩, hm, rfl⟩ := List.mem_map.1
          (hkeys c n root (Or.inr hparent) (Or.inl ⟨hroot, rfl⟩) c' hkey)
        obtain ⟨i, hi⟩ := List.getElem?_of_mem hm
        exact Or.inr ⟨[i], m, exposed_singleton i, hi⟩
      · obtain ⟨p, m, hexposed, hentry⟩ := ih.resolve_left hroot
        obtain ⟨q, hq, m', hm', -⟩ := Leading.exists_leading hE hexposed hentry
          rfl (by simpa [eq_comm] using hroot)
        obtain ⟨⟨k, m''⟩, hmem', rfl⟩ := List.mem_map.1
          (hkeys c n m' (Or.inr hparent)
            (Or.inr (occurs_iff_entryAt.2 ⟨q, hm'⟩)) c' hkey)
        obtain ⟨r, hr, hentry'⟩ := exists_exposed_of_mem hE hq hm' hmem'
        exact Or.inr ⟨r, m'', hr, hentry'⟩

end Whole

/-- Change `5` over the changes `1` and `2`; `1` is a bare cross-link first and
comes with its own child `3` below `2`. -/
def linkedThenInline : ChangeTree ℕ Unit :=
  .node () (.present (.cons 1 (.node () .absent)
    (.cons 2 (.node () (.present (.cons 1 (.node () (.present
      (.cons 3 (.node () .absent) .nil))) .nil))) .nil)))

/-- The depth-first walkers do not see change `3`. -/
theorem linkedThenInline_not_seen :
    3 ∈ collectTreeCIDs 5 linkedThenInline ∧
    3 ∉ collectAllCidsInTree (some 5) (some linkedThenInline) ∧
    treeContainsCid (some 5) (some linkedThenInline) (some 3) = false ∧
    ¬WalkersSeeTree (some 5) linkedThenInline := by
  have hmissed : 3 ∉ collectAllCidsInTree (some 5) (some linkedThenInline) := by
    decide
  refine ⟨by decide, hmissed, by decide, fun h => hmissed ?_⟩
  rw [h.breadthFirst 5 rfl]
  decide

end Collabswarm.Merkle
