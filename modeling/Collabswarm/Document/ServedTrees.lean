import Collabswarm.Document.Compaction
import Collabswarm.Document.FetchFailures

/-!
# The trees that peers serve

The tree of `_lastSyncMessage` is built by `_makeChange`, pruned by
`_pruneChanges`, taken over from a peer, or stripped of its payloads before it
is taken over.  In all these trees a CID has children in one place at most; its
other occurrences are leaves.
-/

namespace Collabswarm.Document

variable {C : Type}

mutual

/-- `stripInlineChanges`. -/
def stripInlineChanges : ChangeNode C → ChangeNode C
  | .mk kind _ children => .mk kind false (stripChildren children)

/-- The children without payloads. -/
def stripChildren : Children C → Children C
  | .absent => .absent
  | .deferred => .deferred
  | .present nodes => .present (stripList nodes)

/-- A map of children without payloads. -/
def stripList : ChildList C → ChildList C
  | .nil => .nil
  | .cons cid node rest => .cons cid (stripInlineChanges node) (stripList rest)

end

/-- No children are deferred, every node has the kind of its change, and a CID
has children in one place at most. -/
structure Wholesome (kindOf : C → NodeKind) (tree : C × ChangeNode C) :
    Prop where
  inline : ∀ path c n, entryAt tree path = some (c, n) →
    n.children ≠ .deferred
  kinds : ∀ path c n, entryAt tree path = some (c, n) → n.kind = kindOf c
  once : ∀ path path' c n n', entryAt tree path = some (c, n) →
    entryAt tree path' = some (c, n') → n.children ≠ .absent →
      n'.children ≠ .absent → path = path'

theorem Wholesome.addressed {kindOf : C → NodeKind} {tree : C × ChangeNode C}
    (h : Wholesome kindOf tree) : Addressed tree.1 tree.2 where
  inline := by
    intro c n hoccurs
    obtain ⟨path, hpath⟩ := occurs_iff_entryAt.1 hoccurs
    exact h.inline path c n hpath
  same := by
    intro c n n' hoccurs hoccurs'
    obtain ⟨path, hpath⟩ := occurs_iff_entryAt.1 hoccurs
    obtain ⟨path', hpath'⟩ := occurs_iff_entryAt.1 hoccurs'
    refine ⟨(h.kinds path c n hpath).trans (h.kinds path' c n' hpath').symm, ?_⟩
    intro nodes nodes' hnodes hnodes'
    obtain rfl := h.once path path' c n n' hpath hpath'
      (by rw [hnodes]; simp) (by rw [hnodes']; simp)
    rw [hpath] at hpath'
    obtain rfl := (Prod.mk.inj (Option.some.inj hpath')).2
    rw [hnodes] at hnodes'
    exact Children.present.inj hnodes'

theorem children_of_mem_entries {n : ChangeNode C} {e : C × ChangeNode C}
    (h : e ∈ n.entries) :
    ∃ nodes, n.children = .present nodes ∧ e ∈ nodes.toList := by
  rw [ChangeNode.entries] at h
  split at h
  · rename_i nodes hnodes
    exact ⟨nodes, hnodes, h⟩
  · cases h

/-- A leaf has one position. -/
theorem entryAt_leaf {c c' : C} {kind : NodeKind} {hasChange : Bool}
    {path : List ℕ} {n : ChangeNode C}
    (h : entryAt (c, .mk kind hasChange .absent) path = some (c', n)) :
    path = [] ∧ c' = c ∧ n = .mk kind hasChange .absent := by
  cases path with
  | nil =>
      obtain ⟨rfl, rfl⟩ := Prod.mk.inj (Option.some.inj h)
      exact ⟨rfl, rfl, rfl⟩
  | cons i path => cases h

theorem wholesome_leaf (kindOf : C → NodeKind) (c : C) (hasChange : Bool) :
    Wholesome kindOf (c, .mk (kindOf c) hasChange .absent) where
  inline := by
    intro path c' n h
    obtain ⟨-, -, rfl⟩ := entryAt_leaf h
    simp [ChangeNode.children]
  kinds := by
    intro path c' n h
    obtain ⟨-, rfl, rfl⟩ := entryAt_leaf h
    rfl
  once := by
    intro path path' c' n n' h h' _ _
    rw [(entryAt_leaf h).1, (entryAt_leaf h').1]

/-! ## Stripped trees -/

theorem toList_stripList (nodes : ChildList C) :
    (stripList nodes).toList =
      nodes.toList.map fun e => (e.1, stripInlineChanges e.2) := by
  cases nodes with
  | nil =>
      rw [stripList, ChildList.toList]
      rfl
  | cons cid node rest =>
      rw [stripList, ChildList.toList, ChildList.toList, List.map_cons,
        toList_stripList rest]

theorem kind_stripInlineChanges (n : ChangeNode C) :
    (stripInlineChanges n).kind = n.kind := by
  obtain ⟨kind, hasChange, children⟩ := n
  rw [stripInlineChanges]
  rfl

theorem children_stripInlineChanges (n : ChangeNode C) :
    (stripInlineChanges n).children = stripChildren n.children := by
  obtain ⟨kind, hasChange, children⟩ := n
  rw [stripInlineChanges]
  rfl

theorem entries_stripInlineChanges (n : ChangeNode C) :
    (stripInlineChanges n).entries =
      n.entries.map fun e => (e.1, stripInlineChanges e.2) := by
  rw [ChangeNode.entries, ChangeNode.entries, children_stripInlineChanges]
  cases n.children with
  | absent =>
      rw [stripChildren]
      rfl
  | deferred =>
      rw [stripChildren]
      rfl
  | present nodes =>
      rw [stripChildren]
      exact toList_stripList nodes

/-- Stripping keeps all positions. -/
theorem entryAt_stripInlineChanges :
    ∀ (path : List ℕ) (c : C) (n : ChangeNode C),
      entryAt (c, stripInlineChanges n) path =
        (entryAt (c, n) path).map fun e => (e.1, stripInlineChanges e.2) := by
  intro path
  induction path with
  | nil =>
      intro c n
      rfl
  | cons i path ih =>
      intro c n
      rw [entryAt, entryAt, entries_stripInlineChanges, List.getElem?_map,
        Option.bind_map, Option.map_bind]
      congr 1
      funext child
      exact ih child.1 child.2

theorem Wholesome.stripped {kindOf : C → NodeKind} {tree : C × ChangeNode C}
    (h : Wholesome kindOf tree) :
    Wholesome kindOf (tree.1, stripInlineChanges tree.2) := by
  have horiginal : ∀ {path c n},
      entryAt (tree.1, stripInlineChanges tree.2) path = some (c, n) →
      ∃ n₀, entryAt tree path = some (c, n₀) ∧ n = stripInlineChanges n₀ := by
    intro path c n hpath
    rw [entryAt_stripInlineChanges] at hpath
    obtain ⟨⟨c₀, n₀⟩, hn₀, heq⟩ := Option.map_eq_some_iff.1 hpath
    obtain ⟨rfl, rfl⟩ := Prod.mk.inj heq
    exact ⟨n₀, hn₀, rfl⟩
  constructor
  · intro path c n hpath
    obtain ⟨n₀, hn₀, rfl⟩ := horiginal hpath
    rw [children_stripInlineChanges]
    have hinline := h.inline path c n₀ hn₀
    cases hchildren : n₀.children with
    | absent => simp [stripChildren]
    | deferred => exact absurd hchildren hinline
    | present nodes => simp [stripChildren]
  · intro path c n hpath
    obtain ⟨n₀, hn₀, rfl⟩ := horiginal hpath
    rw [kind_stripInlineChanges]
    exact h.kinds path c n₀ hn₀
  · intro path path' c n n' hpath hpath' hchildren hchildren'
    obtain ⟨n₀, hn₀, rfl⟩ := horiginal hpath
    obtain ⟨n₀', hn₀', rfl⟩ := horiginal hpath'
    rw [children_stripInlineChanges] at hchildren hchildren'
    refine h.once path path' c n₀ n₀' hn₀ hn₀' ?_ ?_
    · intro habsent
      exact hchildren (by rw [habsent, stripChildren])
    · intro habsent
      exact hchildren' (by rw [habsent, stripChildren])

/-- Stripping keeps the paths of a tree. -/
theorem reached_stripInlineChanges {known : C → Bool} {rootId c : C}
    {root : ChangeNode C} :
    (∃ n, Reached known rootId (stripInlineChanges root) c n) ↔
      ∃ n, Reached known rootId root c n := by
  constructor
  · rintro ⟨n, h⟩
    have horiginal : ∃ n₀, Reached known rootId root c n₀ ∧
        n = stripInlineChanges n₀ := by
      induction h with
      | root hknown => exact ⟨root, Reached.root hknown, rfl⟩
      | @child _ c' n n' nodes _ hchildren hmem hknown ih =>
          obtain ⟨n₀, hn₀, rfl⟩ := ih
          have hentry : (c', n') ∈ (stripInlineChanges n₀).entries := by
            rw [ChangeNode.entries, hchildren]
            exact hmem
          rw [entries_stripInlineChanges] at hentry
          obtain ⟨⟨c₁, n₁⟩, hentry₁, heq⟩ := List.mem_map.1 hentry
          obtain ⟨rfl, rfl⟩ := Prod.mk.inj heq
          obtain ⟨nodes₁, hnodes₁, hmem₁⟩ := children_of_mem_entries hentry₁
          exact ⟨n₁, Reached.child hn₀ hnodes₁ hmem₁ hknown, rfl⟩
    obtain ⟨n₀, hn₀, -⟩ := horiginal
    exact ⟨n₀, hn₀⟩
  · rintro ⟨n, h⟩
    refine ⟨stripInlineChanges n, ?_⟩
    induction h with
    | root hknown => exact Reached.root hknown
    | @child _ c' n n' nodes _ hchildren hmem hknown ih =>
        have hstripped : (stripInlineChanges n).children =
            .present (stripList nodes) := by
          rw [children_stripInlineChanges, hchildren, stripChildren]
        refine Reached.child ih hstripped ?_ hknown
        rw [toList_stripList]
        exact List.mem_map_of_mem hmem

section Served

variable [LinearOrder C]

/-- The trees that peers serve: they are built by `_makeChange` over a served
tree, with a new CID and cross-links that carry the kinds of their changes,
pruned by `_pruneChanges`, or stripped on a load and then served on. -/
inductive ServedTree (kindOf : C → NodeKind) : C → ChangeNode C → Prop
  | first (hash : C) :
      ServedTree kindOf hash (.mk (kindOf hash) true .absent)
  | next {parentId : C} {parent : ChangeNode C}
      (hparent : ServedTree kindOf parentId parent)
      {recentTips : List (RecentTip C)}
      (htips : ∀ tip ∈ recentTips, tip.2 = kindOf tip.1) {hash : C}
      (hfresh : ∀ n, ¬Occurs parentId parent hash n) :
      ServedTree kindOf hash
        (makeChangeNode (some (parentId, parent)) recentTips hash
          (kindOf hash))
  | pruned {rootId : C} {root : ChangeNode C}
      (hroot : ServedTree kindOf rootId root) (keepRecentNodes : ℕ) :
      ServedTree kindOf rootId (pruneChanges keepRecentNodes (rootId, root)).2
  | stripped {rootId : C} {root : ChangeNode C}
      (hroot : ServedTree kindOf rootId root) :
      ServedTree kindOf rootId (stripInlineChanges root)

/-! ### Changes made over a served tree -/

theorem mem_selectLoop {primaryParentId newCid : C} {maxCrossLinks : ℕ} :
    ∀ (rest out : List (RecentTip C)) {tip : RecentTip C},
      tip ∈ selectLoop primaryParentId newCid maxCrossLinks out rest →
        tip ∈ out ∨ tip ∈ rest := by
  intro rest
  induction rest with
  | nil =>
      intro out tip h
      exact Or.inl h
  | cons t rest ih =>
      intro out tip h
      rw [selectLoop] at h
      split_ifs at h
      · exact Or.inl h
      · exact (ih out h).imp_right (List.mem_cons_of_mem t)
      · exact (ih out h).imp_right (List.mem_cons_of_mem t)
      · exact (ih out h).imp_right (List.mem_cons_of_mem t)
      · rcases ih _ h with hout | hrest
        · rcases List.mem_append.1 hout with hout | hnew
          · exact Or.inl hout
          · exact Or.inr (List.mem_singleton.1 hnew ▸ List.mem_cons_self)
        · exact Or.inr (List.mem_cons_of_mem t hrest)

theorem toList_foldl_link (tips : List (RecentTip C)) :
    ∀ children : ChildList C, ∃ leaves : List (C × ChangeNode C),
      (tips.foldl ChildList.link children).toList =
        children.toList ++ leaves ∧
      ∀ e ∈ leaves, ∃ tip ∈ tips, e = (tip.1, .mk tip.2 false .absent) := by
  induction tips with
  | nil =>
      intro children
      exact ⟨[], by simp⟩
  | cons tip tips ih =>
      intro children
      rw [List.foldl_cons]
      obtain ⟨leaves, hleaves, hall⟩ := ih (children.link tip)
      have hall' : ∀ e ∈ leaves, ∃ t ∈ tip :: tips,
          e = (t.1, .mk t.2 false .absent) := by
        intro e he
        obtain ⟨t, ht, heq⟩ := hall e he
        exact ⟨t, List.mem_cons_of_mem tip ht, heq⟩
      by_cases hmem : tip.1 ∈ children.toList.map Prod.fst
      · rw [ChildList.link, if_pos hmem] at hleaves
        rw [ChildList.link, if_pos hmem]
        exact ⟨leaves, hleaves, hall'⟩
      · rw [ChildList.link, if_neg hmem] at hleaves
        rw [ChildList.link, if_neg hmem]
        refine ⟨(tip.1, .mk tip.2 false .absent) :: leaves, ?_, ?_⟩
        · rw [hleaves, LocalChanges.toList_concat, List.append_assoc]
          rfl
        · intro e he
          rcases List.mem_cons.1 he with rfl | he
          · exact ⟨tip, List.mem_cons_self, rfl⟩
          · exact hall' e he

/-- The positions of a new change: its own, those of the tree below it, and
the cross-links. -/
theorem entryAt_makeChangeNode {parent : C × ChangeNode C}
    {recentTips : List (RecentTip C)} {hash c : C} {kind : NodeKind}
    {path : List ℕ} {n : ChangeNode C}
    (h : entryAt (hash, makeChangeNode (some parent) recentTips hash kind)
      path = some (c, n)) :
    (path = [] ∧ c = hash ∧
      n = makeChangeNode (some parent) recentTips hash kind) ∨
    (∃ rest, path = 0 :: rest ∧ entryAt parent rest = some (c, n)) ∨
    ∃ i, path = [i + 1] ∧ ∃ tip ∈ recentTips,
      c = tip.1 ∧ n = .mk tip.2 false .absent := by
  obtain ⟨parentId, changes⟩ := parent
  obtain ⟨leaves, hleaves, hall⟩ := toList_foldl_link
    (selectCrossLinks recentTips parentId hash maxCrossLinks)
    (.cons parentId changes .nil)
  have hentries : (makeChangeNode (some (parentId, changes)) recentTips hash
      kind).entries = (parentId, changes) :: leaves := hleaves
  rcases path with _ | ⟨i, path⟩
  · obtain ⟨rfl, rfl⟩ := Prod.mk.inj (Option.some.inj h)
    exact Or.inl ⟨rfl, rfl, rfl⟩
  · rw [entryAt, hentries] at h
    rcases i with _ | i
    · exact Or.inr (Or.inl ⟨path, rfl, h⟩)
    · rw [List.getElem?_cons_succ] at h
      obtain ⟨leaf, hleaf, hbelow⟩ := Option.bind_eq_some_iff.1 h
      obtain ⟨tip, htip, rfl⟩ := hall leaf (List.mem_of_getElem? hleaf)
      obtain ⟨rfl, rfl, rfl⟩ := entryAt_leaf hbelow
      have hrecent : tip ∈ recentTips := by
        rcases mem_selectLoop _ _ htip with hnil | hmem
        · cases hnil
        · exact List.mem_reverse.1 hmem
      exact Or.inr (Or.inr ⟨i, rfl, tip, hrecent, rfl, rfl⟩)

theorem Wholesome.next {kindOf : C → NodeKind} {parent : C × ChangeNode C}
    (h : Wholesome kindOf parent) {recentTips : List (RecentTip C)}
    (htips : ∀ tip ∈ recentTips, tip.2 = kindOf tip.1) {hash : C}
    (hfresh : ∀ n, ¬Occurs parent.1 parent.2 hash n) :
    Wholesome kindOf (hash, makeChangeNode (some parent) recentTips hash
      (kindOf hash)) where
  inline := by
    intro path c n hpath
    obtain ⟨-, -, rfl⟩ | ⟨rest, -, hrest⟩ | ⟨i, -, tip, -, -, rfl⟩ :=
      entryAt_makeChangeNode hpath
    · simp [makeChangeNode, ChangeNode.children]
    · exact h.inline rest c n hrest
    · simp [ChangeNode.children]
  kinds := by
    intro path c n hpath
    obtain ⟨-, rfl, rfl⟩ | ⟨rest, -, hrest⟩ | ⟨i, -, tip, htip, rfl, rfl⟩ :=
      entryAt_makeChangeNode hpath
    · rfl
    · exact h.kinds rest c n hrest
    · exact htips tip htip
  once := by
    have hnew : ∀ rest n, entryAt parent rest ≠ some (hash, n) := by
      intro rest n hrest
      exact hfresh n (occurs_iff_entryAt.2 ⟨rest, hrest⟩)
    intro path path' c n n' hpath hpath' hchildren hchildren'
    obtain ⟨rfl, rfl, -⟩ | ⟨rest, rfl, hrest⟩ | ⟨i, -, tip, -, -, rfl⟩ :=
      entryAt_makeChangeNode hpath
    · obtain ⟨rfl, -, -⟩ | ⟨rest', -, hrest'⟩ | ⟨i, -, tip, -, -, rfl⟩ :=
        entryAt_makeChangeNode hpath'
      · rfl
      · exact absurd hrest' (hnew rest' n')
      · exact absurd rfl hchildren'
    · obtain ⟨-, rfl, -⟩ | ⟨rest', rfl, hrest'⟩ | ⟨i, -, tip, -, -, rfl⟩ :=
        entryAt_makeChangeNode hpath'
      · exact absurd hrest (hnew rest n)
      · rw [h.once rest rest' c n n' hrest hrest' hchildren hchildren']
      · exact absurd rfl hchildren'
    · exact absurd rfl hchildren

/-! ### Pruned trees -/

theorem setKey_kinds {kindOf : C → NodeKind} {cid : C} {node : ChangeNode C}
    (hnode : node.kind = kindOf cid) :
    ∀ {out : ChildList C}, (∀ e ∈ out.toList, e.2.kind = kindOf e.1) →
      ∀ e ∈ (out.setKey cid node).toList, e.2.kind = kindOf e.1
  | .nil, _ => by
      intro e he
      rw [ChildList.setKey, ChildList.toList, ChildList.toList,
        List.mem_singleton] at he
      rw [he]
      exact hnode
  | .cons cid' node' rest, hout => by
      have hrest : ∀ e ∈ rest.toList, e.2.kind = kindOf e.1 := fun e he =>
        hout e (List.mem_cons_of_mem _ he)
      intro e he
      rw [ChildList.setKey] at he
      split at he
      · rename_i heq
        rcases List.mem_cons.1 he with rfl | he
        · exact heq ▸ hnode
        · exact hrest e he
      · rcases List.mem_cons.1 he with rfl | he
        · exact hout _ List.mem_cons_self
        · exact setKey_kinds hnode hrest e he

mutual

theorem collectACLNode_kinds {kindOf : C → NodeKind} {cid : C}
    {out : ChildList C} (hout : ∀ e ∈ out.toList, e.2.kind = kindOf e.1) :
    ∀ n : ChangeNode C, (∀ c n', Occurs cid n c n' → n'.kind = kindOf c) →
      ∀ e ∈ (collectACLNode out cid n).toList, e.2.kind = kindOf e.1
  | .mk kind hasChange children, hkinds => by
      rw [collectACLNode]
      refine collectACLChildren_kinds ?_ children ?_
      · split
        · exact hout
        · have hkind : kind = kindOf cid :=
            hkinds cid (.mk kind hasChange children) (Reached.root rfl)
          refine setKey_kinds ?_ hout
          exact hkind
      · intro nodes hnodes e he c n' hoccurs
        exact hkinds c n' (Reached.of_child rfl hnodes he hoccurs)

theorem collectACLChildren_kinds {kindOf : C → NodeKind} {out : ChildList C}
    (hout : ∀ e ∈ out.toList, e.2.kind = kindOf e.1) :
    ∀ children : Children C,
      (∀ nodes, children = .present nodes → ∀ e ∈ nodes.toList,
        ∀ c n', Occurs e.1 e.2 c n' → n'.kind = kindOf c) →
      ∀ e ∈ (collectACLChildren out children).toList, e.2.kind = kindOf e.1
  | .absent, _ => by
      rw [collectACLChildren]
      exact hout
  | .deferred, _ => by
      rw [collectACLChildren]
      exact hout
  | .present nodes, hkinds => by
      rw [collectACLChildren]
      exact collectACLNodes_kinds hout nodes (hkinds nodes rfl)

theorem collectACLNodes_kinds {kindOf : C → NodeKind} {out : ChildList C}
    (hout : ∀ e ∈ out.toList, e.2.kind = kindOf e.1) :
    ∀ nodes : ChildList C,
      (∀ e ∈ nodes.toList, ∀ c n', Occurs e.1 e.2 c n' →
        n'.kind = kindOf c) →
      ∀ e ∈ (collectACLNodes out nodes).toList, e.2.kind = kindOf e.1
  | .nil, _ => by
      rw [collectACLNodes]
      exact hout
  | .cons cid node rest, hkinds => by
      rw [collectACLNodes]
      refine collectACLNodes_kinds ?_ rest ?_
      · exact collectACLNode_kinds hout node
          (hkinds (cid, node) List.mem_cons_self)
      · exact fun e he => hkinds e (List.mem_cons_of_mem _ he)

end

theorem entries_pruneNode_kinds {kindOf : C → NodeKind}
    {cut : List (List ℕ)} {path : List ℕ} (hcut : path ∈ cut) {cid : C}
    {n : ChangeNode C} (hkinds : ∀ c n', Occurs cid n c n' →
      n'.kind = kindOf c) :
    ∀ e ∈ (pruneNode cut path n).entries, e.2.kind = kindOf e.1 := by
  obtain ⟨kind, hasChange, children⟩ := n
  rw [pruneNode, if_pos hcut]
  intro e he
  rw [ChangeNode.entries, ChangeNode.children] at he
  cases children with
  | absent => cases he
  | deferred => cases he
  | present nodes =>
      have hnodes : ∀ e ∈ nodes.toList, ∀ c n', Occurs e.1 e.2 c n' →
          n'.kind = kindOf c := by
        intro e he c n' hoccurs
        exact hkinds c n' (Reached.of_child rfl rfl he hoccurs)
      have hnil : ∀ e ∈ ChildList.nil.toList, e.2.kind = kindOf e.1 := by
        intro e he
        cases he
      have hall := collectACLNodes_kinds hnil nodes hnodes
      rw [preservedACL] at he
      split at he
      · rename_i nodes' hnodes'
        split at hnodes'
        · cases hnodes'
        · cases hnodes'
          exact hall e he
      · cases he

/-- A node keeps its children, or the ACL nodes below it. -/
theorem children_pruneNode (cut : List (List ℕ)) (path : List ℕ)
    (n : ChangeNode C) :
    (pruneNode cut path n).children = preservedACL n.children ∨
      (pruneNode cut path n).children =
        pruneChildren cut path n.children := by
  obtain ⟨kind, hasChange, children⟩ := n
  rw [pruneNode, ChangeNode.children, ChangeNode.children]
  split
  · exact Or.inl rfl
  · exact Or.inr rfl

theorem preservedACL_ne_deferred {children : Children C}
    (h : children ≠ .deferred) : preservedACL children ≠ .deferred := by
  cases children with
  | absent => exact h
  | deferred => exact absurd rfl h
  | present nodes =>
      rw [preservedACL]
      split
      · simp
      · simp

theorem absent_pruneNode {cut : List (List ℕ)} {path : List ℕ}
    {n : ChangeNode C} (h : n.children = .absent) :
    (pruneNode cut path n).children = .absent := by
  rcases children_pruneNode cut path n with hcut | hkept
  · rw [hcut, h, preservedACL]
    intro nodes
    simp
  · rw [hkept, h, pruneChildren]

/-- A position of a pruned tree is one of the tree, or an ACL node that was
kept as a leaf. -/
theorem entryAt_pruneNode_cases {kindOf : C → NodeKind}
    {cut : List (List ℕ)} :
    ∀ (path base : List ℕ) {cid c : C} {n n' : ChangeNode C},
      (∀ c n', Occurs cid n c n' → n'.kind = kindOf c) →
      entryAt (cid, pruneNode cut base n) path = some (c, n') →
      (∃ n₀, entryAt (cid, n) path = some (c, n₀) ∧
        n' = pruneNode cut (base ++ path) n₀) ∨
      n'.children = .absent ∧ n'.kind = kindOf c := by
  intro path
  induction path with
  | nil =>
      intro base cid c n n' _ h
      obtain ⟨rfl, rfl⟩ := Prod.mk.inj (Option.some.inj h)
      exact Or.inl ⟨n, rfl, by rw [List.append_nil]⟩
  | cons i path ih =>
      intro base cid c n n' hkinds h
      rw [entryAt] at h
      obtain ⟨child, hchild, hbelow⟩ := Option.bind_eq_some_iff.1 h
      by_cases hcut : base ∈ cut
      · have hmem := List.mem_of_getElem? hchild
        have habsent := (entries_pruneNode_cut hcut n child hmem).2
        have hkind := entries_pruneNode_kinds hcut hkinds child hmem
        cases path with
        | nil =>
            cases hbelow
            exact Or.inr ⟨habsent, hkind⟩
        | cons j path =>
            rw [entryAt, ChangeNode.entries, habsent] at hbelow
            cases hbelow
      · rw [entries_pruneNode hcut] at hchild
        obtain ⟨⟨c₀, n₀⟩, hchild₀, rfl⟩ := Option.map_eq_some_iff.1 hchild
        have hbelow₀ : ∀ c n', Occurs c₀ n₀ c n' → n'.kind = kindOf c := by
          intro c n' hoccurs
          obtain ⟨nodes, hnodes, hmem⟩ := children_of_mem_entries
            (List.mem_of_getElem? hchild₀)
          exact hkinds c n' (Reached.of_child rfl hnodes hmem hoccurs)
        rcases ih (base ++ [i]) hbelow₀ hbelow with ⟨n₁, hn₁, rfl⟩ | hleaf
        · refine Or.inl ⟨n₁, ?_, ?_⟩
          · rw [entryAt, hchild₀]
            exact hn₁
          · rw [List.append_assoc]
            rfl
        · exact Or.inr hleaf

theorem Wholesome.pruned {kindOf : C → NodeKind} {tree : C × ChangeNode C}
    (h : Wholesome kindOf tree) (keepRecentNodes : ℕ) :
    Wholesome kindOf (pruneChanges keepRecentNodes tree) := by
  rw [pruneChanges]
  split
  · exact h
  · have hkinds : ∀ c n, Occurs tree.1 tree.2 c n → n.kind = kindOf c := by
      intro c n hoccurs
      obtain ⟨path, hpath⟩ := occurs_iff_entryAt.1 hoccurs
      exact h.kinds path c n hpath
    constructor
    · intro path c n hpath
      obtain ⟨n₀, hn₀, rfl⟩ | ⟨habsent, -⟩ :=
        entryAt_pruneNode_cases path [] hkinds hpath
      · have hinline := h.inline path c n₀ hn₀
        rcases children_pruneNode (boundary keepRecentNodes tree) ([] ++ path)
          n₀ with hcut | hkept
        · rw [hcut]
          exact preservedACL_ne_deferred hinline
        · rw [hkept]
          cases hchildren : n₀.children with
          | absent => simp [pruneChildren]
          | deferred => exact absurd hchildren hinline
          | present nodes => simp [pruneChildren]
      · rw [habsent]
        simp
    · intro path c n hpath
      obtain ⟨n₀, hn₀, rfl⟩ | ⟨-, hkind⟩ :=
        entryAt_pruneNode_cases path [] hkinds hpath
      · rw [kind_pruneNode]
        exact h.kinds path c n₀ hn₀
      · exact hkind
    · intro path path' c n n' hpath hpath' hchildren hchildren'
      obtain ⟨n₀, hn₀, rfl⟩ | ⟨habsent, -⟩ :=
        entryAt_pruneNode_cases path [] hkinds hpath
      · obtain ⟨n₀', hn₀', rfl⟩ | ⟨habsent', -⟩ :=
          entryAt_pruneNode_cases path' [] hkinds hpath'
        · refine h.once path path' c n₀ n₀' hn₀ hn₀' ?_ ?_
          · exact fun habsent => hchildren (absent_pruneNode habsent)
          · exact fun habsent => hchildren' (absent_pruneNode habsent)
        · exact absurd habsent' hchildren'
      · exact absurd habsent hchildren

theorem ServedTree.wholesome {kindOf : C → NodeKind} {rootId : C}
    {root : ChangeNode C} (h : ServedTree kindOf rootId root) :
    Wholesome kindOf (rootId, root) := by
  induction h with
  | first hash => exact wholesome_leaf kindOf hash true
  | next _ htips hfresh ih => exact ih.next htips hfresh
  | @pruned rootId root _ keepRecentNodes ih =>
      have hroot : (pruneChanges keepRecentNodes (rootId, root)).1 =
          rootId := by
        rw [pruneChanges]
        split <;> rfl
      have hpruned := ih.pruned keepRecentNodes
      rwa [← Prod.mk.eta (p := pruneChanges keepRecentNodes (rootId, root)),
        hroot] at hpruned
  | stripped _ ih => exact ih.stripped

end Served

end Collabswarm.Document
