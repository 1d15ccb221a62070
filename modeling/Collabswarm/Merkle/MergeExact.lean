import Collabswarm.Merkle.Walkers

/-!
# What a merge returns

`mergeRemoteSyncTree` on trees without deferred children in which a CID names
one map of children and one payload.  It returns the CIDs on paths that meet no
known CID, each with its payload if one of its occurrences there has it.  Where
all of them are bare the kind is that of the first one visited, so it depends
on the order of keys if they disagree.
-/

namespace Collabswarm.Merkle

variable {C L P : Type}

/-! ## Recording the visited entries -/

section Record

variable [DecidableEq C] {byCid : InsertionMap C (NodeData P)}

theorem get?_record (cid c : C) (data : NodeData P) :
    (record byCid cid data).get? c =
      if c = cid then
        match byCid.get? cid with
        | none => some data
        | some existing =>
            if existing.change.isNone && data.change.isSome then some data
            else some existing
      else byCid.get? c := by
  rw [record]
  cases hget : byCid.get? cid with
  | none => exact InsertionMap.get?_set byCid cid c data
  | some existing =>
      dsimp only
      by_cases heq : c = cid
      · subst heq
        rw [if_pos rfl]
        split
        · exact InsertionMap.get?_set_self byCid c data
        · exact hget
      · rw [if_neg heq]
        split
        · rw [InsertionMap.get?_set, if_neg heq]
        · rfl

/-- What an entry of the map says about the visits of its CID so far. -/
def Recorded (known : Finset C) (visits : List (Entry C (NodeData P)))
    (byCid : InsertionMap C (NodeData P)) : Prop :=
  ∀ c, (∀ d, byCid.get? c = some d → c ∉ known ∧
      (∃ n, (c, n) ∈ visits ∧ n.data = d) ∧
      (d.change = none → ∀ n, (c, n) ∈ visits → n.data.change = none)) ∧
    (byCid.get? c = none → c ∉ known → ∀ n, (c, n) ∉ visits)

/-- A known CID is not recorded. -/
theorem Recorded.visit_known {known : Finset C}
    {visits : List (Entry C (NodeData P))} (h : Recorded known visits byCid)
    {cid : C} (hknown : cid ∈ known) (node : ChangeTree C (NodeData P)) :
    Recorded known (visits ++ [(cid, node)]) byCid := by
  intro c
  obtain ⟨hsome, hnone⟩ := h c
  constructor
  · intro d hd
    obtain ⟨hc, ⟨n, hn, hdata⟩, hbare⟩ := hsome d hd
    refine ⟨hc, ⟨n, List.mem_append_left _ hn, hdata⟩, ?_⟩
    intro hchange m hm
    rcases List.mem_append.1 hm with hm | hm
    · exact hbare hchange m hm
    · cases List.mem_singleton.1 hm
      exact absurd hknown hc
  · intro hget hc n hn
    rcases List.mem_append.1 hn with hn | hn
    · exact hnone hget hc n hn
    · cases List.mem_singleton.1 hn
      exact hc hknown

/-- A new CID is recorded, and its payload replaces a missing one. -/
theorem Recorded.visit_new {known : Finset C}
    {visits : List (Entry C (NodeData P))} (h : Recorded known visits byCid)
    {cid : C} (hnew : cid ∉ known) (node : ChangeTree C (NodeData P)) :
    Recorded known (visits ++ [(cid, node)])
      (record byCid cid node.data) := by
  intro c
  obtain ⟨hsome, hnone⟩ := h c
  rw [get?_record]
  by_cases heq : c = cid
  · subst heq
    rw [if_pos rfl]
    have hlast : (c, node) ∈ visits ++ [(c, node)] := by simp
    constructor
    · intro d hd
      cases hget : byCid.get? c with
      | none =>
          rw [hget] at hd
          cases hd
          refine ⟨hnew, ⟨node, hlast, rfl⟩, ?_⟩
          intro hchange m hm
          rcases List.mem_append.1 hm with hm | hm
          · exact absurd hm (hnone hget hnew m)
          · cases List.mem_singleton.1 hm
            exact hchange
      | some existing =>
          rw [hget] at hd
          obtain ⟨-, ⟨n, hn, hdata⟩, hbare⟩ := hsome existing hget
          dsimp only at hd
          split at hd
          · rename_i hupgrade
            cases hd
            refine ⟨hnew, ⟨node, hlast, rfl⟩, fun hchange => ?_⟩
            simp [hchange] at hupgrade
          · rename_i hkeep
            cases hd
            refine ⟨hnew, ⟨n, List.mem_append_left _ hn, hdata⟩, ?_⟩
            intro hchange m hm
            rcases List.mem_append.1 hm with hm | hm
            · exact hbare hchange m hm
            · cases List.mem_singleton.1 hm
              simpa [hchange] using hkeep
    · intro hd
      cases hget : byCid.get? c with
      | none =>
          rw [hget] at hd
          cases hd
      | some existing =>
          rw [hget] at hd
          dsimp only at hd
          split at hd <;> cases hd
  · rw [if_neg heq]
    have hvisits : ∀ n, (c, n) ∈ visits ++ [(cid, node)] ↔
        (c, n) ∈ visits := by
      intro n
      rw [List.mem_append, List.mem_singleton, or_iff_left]
      rintro ⟨⟩
      exact heq rfl
    simp only [hvisits]
    exact ⟨hsome, hnone⟩

theorem Recorded.recordNew {known : Finset C}
    {visits : List (Entry C (NodeData P))} (h : Recorded known visits byCid)
    (e : Entry C (NodeData P)) :
    Recorded known (visits ++ [e]) (recordNew known byCid e) := by
  obtain ⟨cid, node⟩ := e
  rw [Merkle.recordNew]
  split
  · rename_i hknown
    exact h.visit_known hknown node
  · rename_i hnew
    exact h.visit_new hnew node

/-- The map after all visits. -/
theorem recorded_foldl (known : Finset C)
    (visits : List (Entry C (NodeData P))) :
    Recorded known visits (visits.foldl (recordNew known) .empty) := by
  induction visits using List.reverseRecOn with
  | nil =>
      intro c
      simp
  | append_singleton visits e ih =>
      rw [List.foldl_append]
      exact ih.recordNew e

end Record

/-! ## Trees that agree with themselves -/

/-- The root alone. -/
abbrev rootEntry (rootId : C) (root : ChangeTree C L) : List (Entry C L) :=
  [(rootId, root)]

/-- No children are deferred, the occurrences of a CID that have a map of
children have the same one, and those with a payload have the same kind and
payload. -/
structure Consistent (forest : List (Entry C (NodeData P))) : Prop where
  inline : ∀ c n, Occurs forest c n → n.children ≠ .deferred
  maps : ∀ c n n' entries entries', Occurs forest c n → Occurs forest c n' →
    n.children = .present entries → n'.children = .present entries' →
    SameEntries entries entries'
  payloads : ∀ c n n', Occurs forest c n → Occurs forest c n' →
    n.data.change.isSome → n'.data.change.isSome → n.data = n'.data

/-- The CID is the local root or among the local hashes. -/
def IsKnown (localRootId : Option C) (localHashes : Finset C) (c : C) : Prop :=
  localRootId = some c ∨ c ∈ localHashes

/-- The root as the only entry; none if it has no CID. -/
def rooted (rootId : Option C) (root : ChangeTree C L) : List (Entry C L) :=
  rootId.toList.map fun cid => (cid, root)

/-- What a merge promises: one entry for each CID that is reached, which has the
fields of one of its reached occurrences, and a payload exactly if one of them
has it. -/
structure MergeExact (known : C → Prop) (forest : List (Entry C (NodeData P)))
    (entries : List (C × NodeData P)) : Prop where
  distinct : (entries.map Prod.fst).Nodup
  reached : ∀ c, c ∈ entries.map Prod.fst ↔ ∃ n, Reached known forest c n
  occurrence : ∀ c d, (c, d) ∈ entries →
    ∃ n, Reached known forest c n ∧ n.data = d
  payload : ∀ c d p, (c, d) ∈ entries →
    (d.change = some p ↔
      ∃ n, Reached known forest c n ∧ n.data.change = some p)

theorem SameTree.hasMap_eq {n n' : ChangeTree C L} (h : SameTree n n') :
    hasMap n = hasMap n' := by
  obtain ⟨hchildren⟩ := h
  cases hchildren <;> rfl

theorem hasMap_of_mem {n : ChangeTree C L} {e : Entry C L}
    (h : e ∈ n.entries) : hasMap n = true := by
  obtain ⟨data, children⟩ := n
  cases children with
  | absent => cases h
  | deferred => cases h
  | present entries => rfl

theorem children_of_hasMap {n : ChangeTree C L} (h : hasMap n = true) :
    ∃ entries, n.children = .present entries ∧
      n.entries = entries.toList := by
  obtain ⟨data, children⟩ := n
  cases children with
  | absent => cases h
  | deferred => cases h
  | present entries => exact ⟨entries, rfl, rfl⟩

/-- Reordering keys keeps a tree consistent. -/
theorem Consistent.reorder (entries : ChildEntries C (NodeData P))
    {entries' : ChildEntries C (NodeData P)} (h : Consistent entries.toList) (hsame : SameEntries entries entries') :
    Consistent entries'.toList := by
  constructor
  · intro c n hoccurs hdeferred
    obtain ⟨m, hm, hnm⟩ := hoccurs.reorder hsame.symm
    obtain ⟨hchildren⟩ := hnm
    cases hdeferred
    cases hchildren
    exact h.inline c _ hm rfl
  · intro c n n' es es' hoccurs hoccurs' hpresent hpresent'
    obtain ⟨m, hm, hnm⟩ := hoccurs.reorder hsame.symm
    obtain ⟨m', hm', hnm'⟩ := hoccurs'.reorder hsame.symm
    obtain ⟨hchildren⟩ := hnm
    obtain ⟨hchildren'⟩ := hnm'
    cases hpresent
    cases hpresent'
    obtain ⟨⟩ | ⟨⟩ | ⟨hes⟩ := hchildren
    obtain ⟨⟩ | ⟨⟩ | ⟨hes'⟩ := hchildren'
    exact (hes.trans (h.maps c _ _ _ _ hm hm' rfl rfl)).trans hes'.symm
  · intro c n n' hoccurs hoccurs' hchange hchange'
    obtain ⟨m, hm, hnm⟩ := hoccurs.reorder hsame.symm
    obtain ⟨m', hm', hnm'⟩ := hoccurs'.reorder hsame.symm
    rw [hnm.data_eq] at hchange ⊢
    rw [hnm'.data_eq] at hchange' ⊢
    exact h.payloads c m m' hm hm' hchange hchange'

/-! ## Visited and reached entries -/

section Visited

variable {known : Finset C} {forest : List (Entry C L)} {E : Set (List ℕ)}

/-- The parent of an exposed position is a leading one. -/
theorem reached_of_exposed (hE : Leading hasMap known forest E) {c : C}
    {n : ChangeTree C L} {p : List ℕ} (hexposed : Exposed E p)
    (hentry : entryAt forest p = some (c, n)) (hc : c ∉ known) :
    Reached (· ∈ known) forest c n := by
  induction p using List.reverseRecOn generalizing c n with
  | nil => cases hentry
  | append_singleton p i ih =>
      by_cases hp : p = []
      · subst hp
        exact Reached.root (List.mem_of_getElem? hentry) hc
      · rw [Exposed, List.dropLast_concat] at hexposed
        obtain ⟨hparent, a, m, hm, -, ha, -⟩ :=
          (hE p).1 (hexposed.resolve_left hp)
        rw [entryAt_concat _ hp, hm] at hentry
        exact Reached.child (ih hparent hm ha) (List.mem_of_getElem? hentry) hc

end Visited

/-- What is reached in a consistent tree is visited, up to the order of
keys. -/
theorem exposed_of_reached {known : Finset C}
    {forest : List (Entry C (NodeData P))} {E : Set (List ℕ)}
    (hE : Leading hasMap known forest E) (hconsistent : Consistent forest)
    {c : C} {n : ChangeTree C (NodeData P)}
    (h : Reached (· ∈ known) forest c n) :
    ∃ p n', Exposed E p ∧ entryAt forest p = some (c, n') ∧
      SameTree n n' := by
  induction h with
  | @root c n hmem _ =>
      obtain ⟨i, hi⟩ := List.getElem?_of_mem hmem
      exact ⟨[i], n, exposed_singleton i, hi, SameTree.refl n⟩
  | @child c c' n n' hparent hmem _ ih =>
      obtain ⟨p, m, hexposed, hentry, hsame⟩ := ih
      have hopens : hasMap m = true := by
        rw [← hsame.hasMap_eq]
        exact hasMap_of_mem hmem
      -- some leading position has the CID of the parent, and the same map
      obtain ⟨q, hq, m', hm', hopens'⟩ := Leading.exists_leading hE hexposed
        hentry hopens hparent.not_known
      obtain ⟨es, hes, hentries⟩ := children_of_hasMap (hasMap_of_mem hmem)
      obtain ⟨es', hes', hentries'⟩ := children_of_hasMap hopens'
      have hmaps : SameEntries es es' :=
        hconsistent.maps c n m' es es' hparent.occurs
          (occurs_iff_entryAt.2 ⟨q, hm'⟩) hes hes'
      rw [hentries] at hmem
      obtain ⟨n'', hn'', hsame'⟩ := hmaps.exists_mem hmem
      rw [← hentries'] at hn''
      obtain ⟨r, hr, hentry'⟩ := exists_exposed_of_mem hE hq hm' hn''
      exact ⟨r, n'', hr, hentry', hsame'⟩

section Merge

variable [DecidableEq C] {localRootId : Option C} {localHashes : Finset C}
  {rootId : C} {root : ChangeTree C (NodeData P)}

/-- The entries that a merge returns, from those it visits. -/
theorem mergeRemoteSyncTree_visits (localRootId : Option C)
    (localHashes : Finset C)
    (hinline : ∀ c n, Occurs (rootEntry rootId root) c n →
      n.children ≠ .deferred) :
    ∃ entries byCid visits E,
      mergeRemoteSyncTree localRootId localHashes (some rootId) root =
        some entries ∧
      (∀ c d, (c, d) ∈ entries ↔ byCid.get? c = some d) ∧
      (entries.map Prod.fst).Nodup ∧
      Recorded (knownCids localRootId localHashes) visits byCid ∧
      Leading hasMap (knownCids localRootId localHashes)
        (rootEntry rootId root) E ∧
      ∀ e, e ∈ visits ↔
        ∃ p, Exposed E p ∧ entryAt (rootEntry rootId root) p = some e := by
  obtain ⟨E, hE⟩ := exists_leading hasMap
    (.cons rootId root .nil : ChildEntries C (NodeData P))
    (knownCids localRootId localHashes)
  have hvisited := (walked_visitEntries _ _ E hE).visited
  have hvisits : (visitEntries hasMap (knownCids localRootId localHashes)
      (.cons rootId root .nil)).2 =
      (visitNode hasMap rootId (knownCids localRootId localHashes) root).2 := by
    rw [visitEntries]
    simp [visitEntries]
  rw [hvisits] at hvisited
  obtain ⟨w, hw, -, hbyCid⟩ := mergeNode_eq localRootId localHashes
    rootId ⟨.empty, ∅⟩ root (by
      rw [Finset.union_empty]
      intro e he
      obtain ⟨p, -, hentry⟩ := (hvisited e).1 he
      exact hinline e.1 e.2 (occurs_iff_entryAt.2 ⟨p, hentry⟩))
  rw [Finset.union_empty] at hbyCid
  refine ⟨w.byCid.entries, w.byCid, _, E, ?_, ?_, w.byCid.nodup, ?_, hE,
    hvisited⟩
  · rw [mergeRemoteSyncTree, hw]
    rfl
  · intro c d
    exact w.byCid.mem_entries_iff
  · rw [hbyCid]
    exact recorded_foldl _ _

theorem isKnown_eq : IsKnown localRootId localHashes =
    (· ∈ knownCids localRootId localHashes) := by
  funext c
  rw [mem_knownCids, IsKnown, @eq_comm _ localRootId]

theorem mergeExact_rootEntry (localRootId : Option C)
    (localHashes : Finset C)
    (hconsistent : Consistent (rootEntry rootId root)) :
    ∃ entries, mergeRemoteSyncTree localRootId localHashes (some rootId) root =
        some entries ∧
      MergeExact (IsKnown localRootId localHashes) (rootEntry rootId root)
        entries := by
  obtain ⟨entries, byCid, visits, E, hentries, hget, hdistinct, hrecorded, hE,
    hvisits⟩ := mergeRemoteSyncTree_visits localRootId localHashes
      hconsistent.inline
  rw [isKnown_eq]
  have hreached : ∀ c n, (c, n) ∈ visits →
      c ∉ knownCids localRootId localHashes →
      Reached (· ∈ knownCids localRootId localHashes) (rootEntry rootId root)
        c n := by
    intro c n hn hc
    obtain ⟨p, hexposed, hentry⟩ := (hvisits _).1 hn
    exact reached_of_exposed hE hexposed hentry hc
  have hvisited : ∀ c n,
      Reached (· ∈ knownCids localRootId localHashes) (rootEntry rootId root)
        c n → ∃ n', (c, n') ∈ visits ∧ SameTree n n' := by
    intro c n hn
    obtain ⟨p, n', hexposed, hentry, hsame⟩ :=
      exposed_of_reached hE hconsistent hn
    exact ⟨n', (hvisits _).2 ⟨p, hexposed, hentry⟩, hsame⟩
  have hoccurrence : ∀ c d, (c, d) ∈ entries → ∃ n,
      Reached (· ∈ knownCids localRootId localHashes) (rootEntry rootId root)
        c n ∧ n.data = d := by
    intro c d hd
    obtain ⟨hc, ⟨n, hn, hdata⟩, -⟩ := (hrecorded c).1 d ((hget c d).1 hd)
    exact ⟨n, hreached c n hn hc, hdata⟩
  refine ⟨entries, hentries, hdistinct, ?_, hoccurrence, ?_⟩
  · intro c
    constructor
    · intro hmem
      obtain ⟨⟨c, d⟩, hd, rfl⟩ := List.mem_map.1 hmem
      obtain ⟨n, hn, -⟩ := hoccurrence c d hd
      exact ⟨n, hn⟩
    · rintro ⟨n, hn⟩
      obtain ⟨n', hn', -⟩ := hvisited c n hn
      cases hd : byCid.get? c with
      | none => exact absurd hn' ((hrecorded c).2 hd hn.not_known n')
      | some d => exact List.mem_map_of_mem ((hget c d).2 hd)
  · intro c d p hd
    constructor
    · intro hchange
      obtain ⟨n, hn, rfl⟩ := hoccurrence c d hd
      exact ⟨n, hn, hchange⟩
    · rintro ⟨n, hn, hchange⟩
      obtain ⟨n', hn', hsame⟩ := hvisited c n hn
      obtain ⟨-, -, hbare⟩ := (hrecorded c).1 d ((hget c d).1 hd)
      have hsome : d.change.isSome := by
        by_contra hnone
        have hbare' := hbare (by simpa using hnone) n' hn'
        rw [← hsame.data_eq, hchange] at hbare'
        cases hbare'
      -- the entry has the payload of another occurrence, which is the same
      obtain ⟨m, hm, rfl⟩ := hoccurrence c d hd
      rw [hconsistent.payloads c m n hm.occurs hn.occurs hsome
        (by simp [hchange]), hchange]

omit [DecidableEq C] in
/-- The entries of two merges that reach the same, up to the order of keys. -/
theorem MergeExact.reorder {known : C → Prop}
    {forest forest' : List (Entry C (NodeData P))}
    {entries entries' : List (C × NodeData P)}
    (h : MergeExact known forest entries)
    (h' : MergeExact known forest' entries') (hconsistent : Consistent forest)
    (hsame : ∀ c n, Reached known forest c n →
      ∃ n', Reached known forest' c n' ∧ SameTree n n')
    (hsame' : ∀ c n, Reached known forest' c n →
      ∃ n', Reached known forest c n' ∧ SameTree n n') :
    (entries'.map Prod.fst).Perm (entries.map Prod.fst) ∧
      ∀ c d d', (c, d) ∈ entries → (c, d') ∈ entries' →
        d'.change = d.change ∧
          (d.change.isSome ∨ (∀ n n', Reached known forest c n →
            Reached known forest c n' → n.data.kind = n'.data.kind) →
            d' = d) := by
  constructor
  · apply (List.perm_ext_iff_of_nodup h'.distinct h.distinct).2
    intro c
    rw [h.reached, h'.reached]
    constructor
    · rintro ⟨n, hn⟩
      obtain ⟨m, hm, -⟩ := hsame' c n hn
      exact ⟨m, hm⟩
    · rintro ⟨n, hn⟩
      obtain ⟨m, hm, -⟩ := hsame c n hn
      exact ⟨m, hm⟩
  · intro c d d' hd hd'
    have hchange : d'.change = d.change := by
      apply Option.ext
      intro p
      rw [h.payload c d p hd, h'.payload c d' p hd']
      constructor
      · rintro ⟨n, hn, hp⟩
        obtain ⟨m, hm, hnm⟩ := hsame' c n hn
        exact ⟨m, hm, hnm.data_eq ▸ hp⟩
      · rintro ⟨n, hn, hp⟩
        obtain ⟨m, hm, hnm⟩ := hsame c n hn
        exact ⟨m, hm, hnm.data_eq ▸ hp⟩
    refine ⟨hchange, fun hdetermined => ?_⟩
    obtain ⟨n, hn, hdata⟩ := h.occurrence c d hd
    obtain ⟨n', hn', hdata'⟩ := h'.occurrence c d' hd'
    obtain ⟨m, hm, hnm⟩ := hsame' c n' hn'
    rw [hnm.data_eq] at hdata'
    rcases hdetermined with hsome | hkinds
    · rw [← hdata', ← hdata]
      apply hconsistent.payloads c m n hm.occurs hn.occurs
      · rw [hdata', hchange]
        exact hsome
      · rw [hdata]
        exact hsome
    · have hkind : d'.kind = d.kind := by
        rw [← hdata', ← hdata]
        exact hkinds m n hm hn
      obtain ⟨kind, change⟩ := d
      obtain ⟨kind', change'⟩ := d'
      cases hkind
      cases hchange
      rfl

end Merge

/-- On every consistent tree a merge returns exactly what is reached, with the
payloads that are reached.  Permuting the keys of maps permutes the entries, and
changes the kind at most of an entry without payload whose occurrences disagree
on it. -/
theorem mergeRemoteSyncTree_exact [DecidableEq C] (rootId : Option C)
    (root : ChangeTree C (NodeData P)) (localRootId : Option C)
    (localHashes : Finset C) (hconsistent : Consistent (rooted rootId root)) :
    ∃ entries, mergeRemoteSyncTree localRootId localHashes rootId root =
        some entries ∧
      MergeExact (IsKnown localRootId localHashes) (rooted rootId root)
        entries ∧
      ∀ root', SameTree root root' → ∃ entries',
        mergeRemoteSyncTree localRootId localHashes rootId root' =
          some entries' ∧
        (entries'.map Prod.fst).Perm (entries.map Prod.fst) ∧
        ∀ c d d', (c, d) ∈ entries → (c, d') ∈ entries' →
          d'.change = d.change ∧
            (d.change.isSome ∨ (∀ n n',
              Reached (IsKnown localRootId localHashes) (rooted rootId root)
                c n →
              Reached (IsKnown localRootId localHashes) (rooted rootId root)
                c n' → n.data.kind = n'.data.kind) → d' = d) := by
  cases rootId with
  | none =>
      refine ⟨[], rfl, ⟨List.nodup_nil, ?_, by simp, by simp⟩, ?_⟩
      · intro c
        refine iff_of_false (by simp) ?_
        rintro ⟨n, hn⟩
        induction hn with
        | root hmem _ => cases hmem
        | child _ _ _ ih => exact ih
      · intro root' _
        exact ⟨[], rfl, List.Perm.refl _, by simp⟩
  | some rootId =>
      obtain ⟨entries, hentries, hexact⟩ := mergeExact_rootEntry
        localRootId localHashes hconsistent
      refine ⟨entries, hentries, hexact, fun root' hsame => ?_⟩
      have hroots : SameEntries (.cons rootId root .nil)
          (.cons rootId root' .nil) := .cons hsame .nil
      obtain ⟨entries', hentries', hexact'⟩ := mergeExact_rootEntry
        localRootId localHashes
        (Consistent.reorder (.cons rootId root .nil) hconsistent hroots)
      refine ⟨entries', hentries', hexact.reorder hexact' hconsistent ?_ ?_⟩
      · exact fun c n hn => Reached.reorder hroots hn
      · exact fun c n hn => Reached.reorder hroots.symm hn

/-- Consistency, from the list of all entries. -/
theorem consistent_of_occurrences (entries : ChildEntries C (NodeData P))
    (hinline : ∀ e ∈ entries.occurrences, e.2.children ≠ .deferred)
    (hmaps : ∀ e ∈ entries.occurrences, ∀ e' ∈ entries.occurrences,
      e.1 = e'.1 → hasMap e.2 = true → hasMap e'.2 = true → e = e')
    (hpayloads : ∀ e ∈ entries.occurrences, ∀ e' ∈ entries.occurrences,
      e.1 = e'.1 → e.2.data.change.isSome → e'.2.data.change.isSome →
        e.2.data = e'.2.data) :
    Consistent entries.toList := by
  constructor
  · intro c n h
    exact hinline (c, n) ((ChildEntries.mem_occurrences entries).2 h)
  · intro c n n' es es' h h' hes hes'
    have heq := hmaps (c, n) ((ChildEntries.mem_occurrences entries).2 h)
      (c, n') ((ChildEntries.mem_occurrences entries).2 h') rfl
      (by simp [hasMap, hes]) (by simp [hasMap, hes'])
    cases heq
    cases hes.symm.trans hes'
    exact SameEntries.refl es
  · intro c n n' h h'
    exact hpayloads (c, n) ((ChildEntries.mem_occurrences entries).2 h)
      (c, n') ((ChildEntries.mem_occurrences entries).2 h') rfl

/-- Change `3` over a bare cross-link to change `1`, and over change `2` with
change `1` inline. -/
def bareThenInline : ChangeTree ℕ (NodeData ℕ) :=
  .node ⟨.document, some 30⟩ (.present
    (.cons 1 (.node ⟨.document, none⟩ .absent)
    (.cons 2 (.node ⟨.document, some 20⟩ (.present
      (.cons 1 (.node ⟨.document, some 10⟩ .absent) .nil))) .nil)))

theorem mergeRemoteSyncTree_bareThenInline :
    mergeRemoteSyncTree none ∅ (some 3) bareThenInline =
      some [(3, ⟨.document, some 30⟩), (1, ⟨.document, some 10⟩),
        (2, ⟨.document, some 20⟩)] ∧
    ∃ entries, mergeRemoteSyncTree none ∅ (some 3) bareThenInline =
        some entries ∧
      MergeExact (IsKnown none ∅) (rooted (some 3) bareThenInline) entries := by
  refine ⟨by decide, ?_⟩
  obtain ⟨entries, hentries, hexact, -⟩ := mergeRemoteSyncTree_exact (some 3)
    bareThenInline none ∅ (consistent_of_occurrences
      (.cons 3 bareThenInline .nil)
      (by simp [bareThenInline, ChildEntries.occurrences,
        ChangeTree.occurrences, ChildMap.occurrences, ChangeTree.children])
      (by simp [bareThenInline, ChildEntries.occurrences,
        ChangeTree.occurrences, ChildMap.occurrences, hasMap,
        ChangeTree.children])
      (by simp [bareThenInline, ChildEntries.occurrences,
        ChangeTree.occurrences, ChildMap.occurrences, ChangeTree.data]))
  exact ⟨entries, hentries, hexact⟩

/-- Change `9` over changes that link to change `3` as different kinds. -/
def linkAs (first second : ℕ) (kind kind' : Document.NodeKind) :
    ChangeTree ℕ (NodeData ℕ) :=
  .node ⟨.document, some 90⟩ (.present
    (.cons first (.node ⟨.document, some 10⟩ (.present
      (.cons 3 (.node ⟨kind, none⟩ .absent) .nil)))
    (.cons second (.node ⟨.document, some 10⟩ (.present
      (.cons 3 (.node ⟨kind', none⟩ .absent) .nil))) .nil)))

/-- The kind of a bare entry depends on the order of keys. -/
theorem mergeRemoteSyncTree_kind_depends :
    Consistent (rooted (some 9) (linkAs 1 2 .document .writer)) ∧
    SameTree (linkAs 1 2 .document .writer) (linkAs 2 1 .writer .document) ∧
    ∃ entries entries',
      mergeRemoteSyncTree none ∅ (some 9) (linkAs 1 2 .document .writer) =
        some entries ∧
      mergeRemoteSyncTree none ∅ (some 9) (linkAs 2 1 .writer .document) =
        some entries' ∧
      (3, ⟨.document, none⟩) ∈ entries ∧ (3, ⟨.document, none⟩) ∉ entries' := by
  refine ⟨?_, .node (.present .swap), _, _, rfl, rfl, by decide, by decide⟩
  apply consistent_of_occurrences
    (.cons 9 (linkAs 1 2 .document .writer) .nil)
  · simp [linkAs, ChildEntries.occurrences, ChangeTree.occurrences,
      ChildMap.occurrences, ChangeTree.children]
  · simp [linkAs, ChildEntries.occurrences, ChangeTree.occurrences,
      ChildMap.occurrences, hasMap, ChangeTree.children]
  · simp [linkAs, ChildEntries.occurrences, ChangeTree.occurrences,
      ChildMap.occurrences, ChangeTree.data]

end Collabswarm.Merkle
