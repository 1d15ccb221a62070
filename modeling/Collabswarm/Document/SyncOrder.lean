import Collabswarm.Document.Sync
import Collabswarm.Support.Transition

/-!
# The order of sync messages

A sync message carries the changes of its tree and those that its snapshot
compacts.  The walk over a tree reaches exactly the nodes on paths that meet no
known CID, and a snapshot counts only if it wins against the latest one, so a
message leaves all its changes in the document exactly if what is skipped in
this way is there already.
-/

namespace Collabswarm.Document

variable {C : Type}

/-! ## What the walk reaches -/

/-- A node on a path of a tree that meets no known CID. -/
inductive Reached (known : C → Bool) (rootId : C) (root : ChangeNode C) :
    C → ChangeNode C → Prop
  | root : known rootId = false → Reached known rootId root rootId root
  | child {c c' : C} {n n' : ChangeNode C} {nodes : ChildList C} :
      Reached known rootId root c n → n.children = .present nodes →
      (c', n') ∈ nodes.toList → known c' = false →
      Reached known rootId root c' n'

/-- A node anywhere in a tree. -/
abbrev Occurs (rootId : C) (root : ChangeNode C) : C → ChangeNode C → Prop :=
  Reached (fun _ => false) rootId root

theorem Reached.occurs {known : C → Bool} {rootId c : C}
    {root n : ChangeNode C} (h : Reached known rootId root c n) :
    Occurs rootId root c n := by
  induction h with
  | root _ => exact Reached.root rfl
  | child _ hchildren hmem _ ih => exact Reached.child ih hchildren hmem rfl

/-- What is reached below a child is reached from the parent. -/
theorem Reached.of_child {known : C → Bool} {rootId c c' : C}
    {root n n' : ChangeNode C} {nodes : ChildList C}
    (hroot : known rootId = false) (hchildren : root.children = .present nodes)
    (hmem : (c, n) ∈ nodes.toList) (h : Reached known c n c' n') :
    Reached known rootId root c' n' := by
  induction h with
  | root hknown => exact Reached.child (Reached.root hroot) hchildren hmem hknown
  | child _ hpresent hlist hknown ih =>
      exact Reached.child ih hpresent hlist hknown

section WalkSpec

variable [DecidableEq C] {known : C → Bool}

/-- The walk is done with an occurrence of a CID: it is known, or it is
recorded and its children were walked. -/
def Visited (known : C → Bool) (w : Walk C) (c : C) (n : ChangeNode C) :
    Prop :=
  known c = true ∨ ((w.byCid.get? c).isSome ∧
    ∀ nodes, n.children = .present nodes → c ∈ w.walked)

/-- What a part of the walk does: nothing is forgotten, the children of every
CID that was newly walked are visited, and every new entry is an occurrence. -/
structure WalkStep (known : C → Bool) (occurs : C → ChangeNode C → Prop)
    (w w' : Walk C) : Prop where
  recorded : ∀ c, (w.byCid.get? c).isSome → (w'.byCid.get? c).isSome
  walked : w.walked ⊆ w'.walked
  closed : ∀ a ∈ w'.walked, a ∈ w.walked ∨ ∃ n nodes, occurs a n ∧
    n.children = .present nodes ∧
    ∀ p ∈ nodes.toList, Visited known w' p.1 p.2
  sound : ∀ c e, w'.byCid.get? c = some e → w.byCid.get? c = some e ∨
    ∃ n, occurs c n ∧ n.kind = e.1

theorem Visited.of_eq {w w' : Walk C} {c : C} {n : ChangeNode C}
    (hrecorded : ∀ c, (w.byCid.get? c).isSome → (w'.byCid.get? c).isSome)
    (hwalked : w.walked ⊆ w'.walked) (h : Visited known w c n) :
    Visited known w' c n := by
  rcases h with hknown | ⟨hsome, hpresent⟩
  · exact Or.inl hknown
  · exact Or.inr ⟨hrecorded c hsome,
      fun nodes hnodes => hwalked (hpresent nodes hnodes)⟩

theorem WalkStep.trans {occurs occurs' occurs'' : C → ChangeNode C → Prop}
    {w w' w'' : Walk C} (h : WalkStep known occurs w w')
    (h' : WalkStep known occurs' w' w'')
    (hleft : ∀ c n, occurs c n → occurs'' c n)
    (hright : ∀ c n, occurs' c n → occurs'' c n) :
    WalkStep known occurs'' w w'' where
  recorded := fun c hc => h'.recorded c (h.recorded c hc)
  walked := fun a ha => h'.walked (h.walked ha)
  closed := by
    intro a ha
    rcases h'.closed a ha with hold | ⟨n, nodes, hoccurs, hpresent, hvisited⟩
    · rcases h.closed a hold with
        hold | ⟨n, nodes, hoccurs, hpresent, hvisited⟩
      · exact Or.inl hold
      · exact Or.inr ⟨n, nodes, hleft a n hoccurs, hpresent,
          fun p hp => (hvisited p hp).of_eq h'.recorded h'.walked⟩
    · exact Or.inr ⟨n, nodes, hright a n hoccurs, hpresent, hvisited⟩
  sound := by
    intro c e he
    rcases h'.sound c e he with hold | ⟨n, hoccurs, hkind⟩
    · rcases h.sound c e hold with hold | ⟨n, hoccurs, hkind⟩
      · exact Or.inl hold
      · exact Or.inr ⟨n, hleft c n hoccurs, hkind⟩
    · exact Or.inr ⟨n, hright c n hoccurs, hkind⟩

theorem WalkStep.refl (occurs : C → ChangeNode C → Prop) (w : Walk C) :
    WalkStep known occurs w w :=
  ⟨fun _ h => h, List.Subset.refl _, fun _ h => Or.inl h,
    fun _ _ h => Or.inl h⟩

/-- Recording an occurrence. -/
theorem Walk.record_step (known : C → Bool) (w : Walk C) {c : C}
    {n : ChangeNode C} (occurs : C → ChangeNode C → Prop)
    (hoccurs : occurs c n) :
    WalkStep known occurs w (w.record c n) ∧
      ((w.record c n).byCid.get? c).isSome := by
  have hset : ∀ w' : Walk C,
      w' = { w with byCid := w.byCid.set c (n.kind, n.hasChange) } →
      WalkStep known occurs w w' ∧ (w'.byCid.get? c).isSome := by
    rintro w' rfl
    refine ⟨⟨?_, List.Subset.refl _, fun _ h => Or.inl h, ?_⟩, by simp⟩
    · intro c' hc'
      simp only [InsertionMap.get?_set]
      split
      · rfl
      · exact hc'
    · intro c' e he
      simp only [InsertionMap.get?_set] at he
      split at he
      · rename_i heq
        cases he
        exact Or.inr ⟨n, heq ▸ hoccurs, rfl⟩
      · exact Or.inl he
  rw [Walk.record]
  split
  · exact hset _ rfl
  · rename_i existing hexisting
    split
    · exact hset _ rfl
    · exact ⟨WalkStep.refl _ _, by rw [hexisting]; rfl⟩

mutual

/-- The walk at a node without deferred children below. -/
theorem walkNode_spec (cid : C) (w : Walk C) :
    ∀ n : ChangeNode C,
      (∀ c n', Reached known cid n c n' → n'.children ≠ .deferred) →
      ∃ w', walkNode known cid w n = some w' ∧
        WalkStep known (Reached known cid n) w w' ∧
        Visited known w' cid n
  | .mk kind hasChange children => by
      intro hdeferred
      rw [walkNode]
      by_cases hknown : known cid = true
      · rw [if_pos hknown]
        exact ⟨w, rfl, WalkStep.refl _ _, Or.inl hknown⟩
      · have hunknown : known cid = false := by simpa using hknown
        obtain ⟨hrecord, hsome⟩ := Walk.record_step known w
          (Reached known cid (.mk kind hasChange children))
          (Reached.root hunknown)
        rw [if_neg hknown]
        by_cases hwalked :
            cid ∈ (w.record cid (.mk kind hasChange children)).walked
        · exact ⟨_, if_pos hwalked, hrecord,
            Or.inr ⟨hsome, fun _ _ => hwalked⟩⟩
        · obtain ⟨w', hw', hstep, hpresent⟩ := walkChildren_spec cid
            (w.record cid (.mk kind hasChange children)) kind hasChange
            hunknown children hdeferred
          refine ⟨w', (if_neg hwalked).trans hw',
            hrecord.trans hstep (fun _ _ h => h) (fun _ _ h => h), ?_⟩
          exact Or.inr ⟨hstep.recorded cid hsome, hpresent⟩

/-- The walk below a node. -/
theorem walkChildren_spec (cid : C) (w : Walk C) (kind : NodeKind)
    (hasChange : Bool) (hunknown : known cid = false) :
    ∀ children : Children C,
      (∀ c n', Reached known cid (.mk kind hasChange children) c n' →
        n'.children ≠ .deferred) →
      ∃ w', walkChildren known cid w children = some w' ∧
        WalkStep known (Reached known cid (.mk kind hasChange children))
          w w' ∧
        ∀ nodes, children = .present nodes → cid ∈ w'.walked
  | .absent => by
      intro _
      exact ⟨w, by rw [walkChildren], WalkStep.refl _ _,
        fun nodes h => by cases h⟩
  | .deferred => by
      intro hdeferred
      exact absurd rfl (hdeferred cid _ (Reached.root hunknown))
  | .present nodes => by
      intro hdeferred
      have hbelow : ∀ p ∈ nodes.toList, ∀ c n', Reached known p.1 p.2 c n' →
          Reached known cid (.mk kind hasChange (.present nodes)) c n' :=
        fun p hp c n' h => Reached.of_child hunknown rfl hp h
      obtain ⟨w', hw', hstep, hvisited⟩ := walkList_spec
        { w with walked := cid :: w.walked } nodes
        (fun p hp c n' h => hdeferred c n' (hbelow p hp c n' h))
      refine ⟨w', by rw [walkChildren]; exact hw', ⟨?_, ?_, ?_, ?_⟩, ?_⟩
      · exact hstep.recorded
      · exact fun a ha => hstep.walked (List.mem_cons_of_mem _ ha)
      · intro a ha
        rcases hstep.closed a ha with
          hold | ⟨n, nodes', ⟨p, hp, hreached⟩, hpresent, hchildren⟩
        · rcases List.mem_cons.1 hold with rfl | hold
          · exact Or.inr ⟨_, nodes, Reached.root hunknown, rfl, hvisited⟩
          · exact Or.inl hold
        · exact Or.inr ⟨n, nodes', hbelow p hp a n hreached, hpresent,
            hchildren⟩
      · intro c e he
        rcases hstep.sound c e he with hold | ⟨n, ⟨p, hp, hreached⟩, hkind⟩
        · exact Or.inl hold
        · exact Or.inr ⟨n, hbelow p hp c n hreached, hkind⟩
      · exact fun _ _ => hstep.walked (by simp)

/-- The walk over a list of children. -/
theorem walkList_spec (w : Walk C) :
    ∀ nodes : ChildList C,
      (∀ p ∈ nodes.toList, ∀ c n', Reached known p.1 p.2 c n' →
        n'.children ≠ .deferred) →
      ∃ w', walkList known w nodes = some w' ∧
        WalkStep known
          (fun c n => ∃ p ∈ nodes.toList, Reached known p.1 p.2 c n) w w' ∧
        ∀ p ∈ nodes.toList, Visited known w' p.1 p.2
  | .nil => by
      intro _
      exact ⟨w, by rw [walkList], WalkStep.refl _ _,
        fun p hp => by cases hp⟩
  | .cons cid node rest => by
      intro hdeferred
      obtain ⟨w', hw', hstep, hvisited⟩ := walkNode_spec cid w node
        (hdeferred (cid, node) (by simp [ChildList.toList]))
      obtain ⟨w'', hw'', hstep', hvisited'⟩ := walkList_spec w' rest
        (fun p hp => hdeferred p (by simp [ChildList.toList, hp]))
      refine ⟨w'', by rw [walkList, hw']; exact hw'', ?_, ?_⟩
      · refine hstep.trans hstep' ?_ ?_
        · exact fun c n h => ⟨(cid, node), by simp [ChildList.toList], h⟩
        · rintro c n ⟨p, hp, h⟩
          exact ⟨p, by simp [ChildList.toList, hp], h⟩
      · intro p hp
        rcases List.mem_cons.1 hp with rfl | hp
        · exact hvisited.of_eq hstep'.recorded hstep'.walked
        · exact hvisited' p hp

end

/-- The walk from the root, in a tree in which a CID has one kind and one map
of children, records exactly the CIDs that are reached. -/
theorem walkNode_root (known : C → Bool) {rootId : C} {root : ChangeNode C}
    (hdeferred : ∀ c n, Occurs rootId root c n → n.children ≠ .deferred)
    (haddressed : ∀ c n n', Occurs rootId root c n → Occurs rootId root c n' →
      n.kind = n'.kind ∧ ∀ nodes nodes', n.children = .present nodes →
        n'.children = .present nodes' → nodes = nodes') :
    ∃ w, walkNode known rootId ⟨.empty, []⟩ root = some w ∧
      (∀ c n, Reached known rootId root c n →
        ∃ e, w.byCid.get? c = some e ∧ e.1 = n.kind) ∧
      ∀ c e, w.byCid.get? c = some e →
        ∃ n, Reached known rootId root c n ∧ n.kind = e.1 := by
  have hinline : ∀ c n, Reached known rootId root c n →
      n.children ≠ .deferred := fun c n h => hdeferred c n h.occurs
  obtain ⟨w, hw, hstep, hvisited⟩ :=
    walkNode_spec rootId ⟨.empty, []⟩ root hinline
  have hsound : ∀ c e, w.byCid.get? c = some e →
      ∃ n, Reached known rootId root c n ∧ n.kind = e.1 := by
    intro c e he
    rcases hstep.sound c e he with hold | hnew
    · cases hold
    · exact hnew
  have hcomplete : ∀ c n, Reached known rootId root c n →
      Visited known w c n := by
    intro c n h
    induction h with
    | root _ => exact hvisited
    | @child a c' na n' nodes hparent hchildren hmem hunknown ih =>
        have hwalked : a ∈ w.walked := by
          rcases ih with hknown | ⟨-, hpresent⟩
          · have hunknown' : known a = false := by
              cases hparent with
              | root h => exact h
              | child _ _ _ h => exact h
            rw [hunknown'] at hknown
            cases hknown
          · exact hpresent nodes hchildren
        rcases hstep.closed a hwalked with
          hold | ⟨n₂, nodes₂, hreached, hpresent, hall⟩
        · cases hold
        · have hsame := (haddressed a na n₂ hparent.occurs
            hreached.occurs).2 nodes nodes₂ hchildren hpresent
          exact hall (c', n') (hsame ▸ hmem)
  refine ⟨w, hw, ?_, hsound⟩
  intro c n h
  have hunknown : known c = false := by
    cases h with
    | root h => exact h
    | child _ _ _ h => exact h
  rcases hcomplete c n h with hknown | ⟨hsome, -⟩
  · rw [hunknown] at hknown
    cases hknown
  · obtain ⟨e, he⟩ := Option.isSome_iff_exists.1 hsome
    obtain ⟨n', hn', hkind⟩ := hsound c e he
    exact ⟨e, he, hkind ▸ (haddressed c n' n hn'.occurs h.occurs).1⟩

end WalkSpec

/-! ## What a message leaves in the document -/

/-- What writers send: a tree comes with the CID of its root, children are
never deferred, and in a tree a CID has one kind and one map of children. -/
structure SyncMessage.WellFormed (m : SyncMessage C) : Prop where
  rooted : m.changes.isSome → m.changeId.isSome
  inline : ∀ rootId ∈ m.changeId, ∀ root ∈ m.changes, ∀ c n,
    Occurs rootId root c n → n.children ≠ .deferred
  addressed : ∀ rootId ∈ m.changeId, ∀ root ∈ m.changes, ∀ c n n',
    Occurs rootId root c n → Occurs rootId root c n' →
      n.kind = n'.kind ∧ ∀ nodes nodes', n.children = .present nodes →
        n'.children = .present nodes' → nodes = nodes'

/-- The document changes of a message: those of its tree and those that its
snapshot compacts. -/
def SyncMessage.Carries (m : SyncMessage C) (c : C) : Prop :=
  (∃ snapshot ∈ m.snapshot, c ∈ snapshot.state) ∨
    ∃ rootId ∈ m.changeId, ∃ root ∈ m.changes, ∃ n,
      Occurs rootId root c n ∧ n.kind = .document

namespace SyncState

variable [LinearOrder C]

/-- A CID at which the walk stops. -/
def known (s : SyncState C) (c : C) : Bool :=
  some c = s.lastChangeId || c ∈ s.hashes

/-- The state after a message. -/
def step (s : SyncState C) (m : SyncMessage C) : SyncState C := (s.sync m).1

/-- Every change of the message is in the document, or compacted in a snapshot
that replaces the latest one, or in the tree on a path that meets no known
CID. -/
def Covered (s : SyncState C) (m : SyncMessage C) : Prop :=
  ∀ c, m.Carries c → c ∈ s.document ∨
    (∃ snapshot ∈ m.snapshot, newer snapshot s.latestSnapshot ∧
      c ∈ snapshot.state) ∨
    ∃ rootId ∈ m.changeId, ∃ root ∈ m.changes, ∃ n,
      Reached (s.adoptSnapshot m.snapshot).known rootId root c n ∧
        n.kind = .document

theorem mem_document_foldl :
    ∀ (entries : List (C × NodeKind × Bool)) (s : SyncState C) (c : C),
      c ∈ (entries.foldl applyEntry s).document ↔ c ∈ s.document ∨
        ∃ e ∈ entries, e.1 = c ∧ e.2.1 = .document := by
  intro entries
  induction entries with
  | nil =>
      intro s c
      simp
  | cons e entries ih =>
      intro s c
      rw [List.foldl_cons, ih]
      by_cases hkind : e.2.1 = .document
      · simp only [applyEntry, hkind, if_true, Finset.mem_insert,
          List.mem_cons, exists_eq_or_imp, and_true]
        constructor
        · rintro ((rfl | h) | h)
          · exact Or.inr (Or.inl rfl)
          · exact Or.inl h
          · exact Or.inr (Or.inr h)
        · rintro (h | rfl | h)
          · exact Or.inl (Or.inr h)
          · exact Or.inl (Or.inl rfl)
          · exact Or.inr h
      · simp [applyEntry, hkind]

theorem latestSnapshot_foldl (entries : List (C × NodeKind × Bool))
    (s : SyncState C) :
    (entries.foldl applyEntry s).latestSnapshot = s.latestSnapshot := by
  induction entries generalizing s with
  | nil => rfl
  | cons e entries ih => rw [List.foldl_cons, ih]; rfl

theorem refresh_document (s : SyncState C) (changeId : Option C)
    (changes : ChangeNode C) :
    (s.refreshLastSyncMessageFromSync changeId changes).document =
        s.document ∧
      (s.refreshLastSyncMessageFromSync changeId changes).latestSnapshot =
        s.latestSnapshot := by
  unfold refreshLastSyncMessageFromSync
  split
  · exact ⟨rfl, rfl⟩
  · exact ⟨rfl, rfl⟩
  · split
    · exact ⟨rfl, rfl⟩
    · split <;> exact ⟨rfl, rfl⟩

theorem mem_hashes_foldl :
    ∀ (entries : List (C × NodeKind × Bool)) (s : SyncState C) (c : C),
      c ∈ (entries.foldl applyEntry s).hashes ↔
        c ∈ s.hashes ∨ ∃ e ∈ entries, e.1 = c := by
  intro entries
  induction entries with
  | nil =>
      intro s c
      simp
  | cons e entries ih =>
      intro s c
      rw [List.foldl_cons, ih]
      simp only [applyEntry, Finset.mem_insert, List.exists_mem_cons_iff,
        eq_comm]
      tauto

theorem refresh_hashes (s : SyncState C) (changeId : Option C)
    (changes : ChangeNode C) :
    (s.refreshLastSyncMessageFromSync changeId changes).hashes = s.hashes := by
  unfold refreshLastSyncMessageFromSync
  split
  · rfl
  · rfl
  · split
    · rfl
    · split <;> rfl

/-- What the tree of a message leaves in the document. -/
theorem syncDocumentChanges_spec (s : SyncState C) {rootId : C}
    {root : ChangeNode C}
    (hdeferred : ∀ c n, Occurs rootId root c n → n.children ≠ .deferred)
    (haddressed : ∀ c n n', Occurs rootId root c n → Occurs rootId root c n' →
      n.kind = n'.kind ∧ ∀ nodes nodes', n.children = .present nodes →
        n'.children = .present nodes' → nodes = nodes') :
    (s.syncDocumentChanges (some rootId) root).1.latestSnapshot =
        s.latestSnapshot ∧
      ∀ c, c ∈ (s.syncDocumentChanges (some rootId) root).1.document ↔
        c ∈ s.document ∨
          ∃ n, Reached s.known rootId root c n ∧ n.kind = .document := by
  obtain ⟨w, hw, hcomplete, hsound⟩ :=
    walkNode_root s.known hdeferred haddressed
  have hmerge : mergeRemoteSyncTree (some rootId) root s.lastChangeId
      s.hashes = some w.byCid.entries := by
    rw [mergeRemoteSyncTree]
    exact congrArg (Option.map fun w => w.byCid.entries) hw
  rw [syncDocumentChanges, hmerge]
  obtain ⟨hdocument, hlatest⟩ := refresh_document
    ((w.byCid.entries.filter fun entry => !entry.2.2).foldl applyEntry
      ((w.byCid.entries.filter fun entry => entry.2.2).foldl applyEntry s))
    (some rootId) root
  refine ⟨?_, ?_⟩
  · rw [hlatest, latestSnapshot_foldl, latestSnapshot_foldl]
  · intro c
    rw [hdocument, mem_document_foldl, mem_document_foldl, or_assoc]
    refine or_congr Iff.rfl ?_
    simp only [List.mem_filter]
    constructor
    · rintro (⟨e, ⟨he, -⟩, rfl, hkind⟩ | ⟨e, ⟨he, -⟩, rfl, hkind⟩)
      · obtain ⟨n, hn, heq⟩ := hsound e.1 e.2 (w.byCid.mem_entries_iff.1 he)
        exact ⟨n, hn, heq.trans hkind⟩
      · obtain ⟨n, hn, heq⟩ := hsound e.1 e.2 (w.byCid.mem_entries_iff.1 he)
        exact ⟨n, hn, heq.trans hkind⟩
    · rintro ⟨n, hn, hkind⟩
      obtain ⟨e, he, heq⟩ := hcomplete c n hn
      have hmem : (c, e) ∈ w.byCid.entries := w.byCid.mem_entries_iff.2 he
      cases hinline : e.2 with
      | true => exact Or.inl ⟨(c, e), ⟨hmem, hinline⟩, rfl, heq.trans hkind⟩
      | false =>
          exact Or.inr ⟨(c, e), ⟨hmem, by simp [hinline]⟩, rfl,
            heq.trans hkind⟩

theorem mem_document_adoptSnapshot (s : SyncState C)
    (snapshot : Option (Snapshot C)) (c : C) :
    c ∈ (s.adoptSnapshot snapshot).document ↔ c ∈ s.document ∨
      ∃ incoming ∈ snapshot, newer incoming s.latestSnapshot ∧
        c ∈ incoming.state := by
  cases snapshot with
  | none => simp [adoptSnapshot]
  | some incoming =>
      rw [adoptSnapshot]
      split
      · rename_i hnewer
        simp [hnewer]
      · rename_i hnewer
        simp [hnewer]

/-- What a message leaves in the document. -/
theorem mem_document_step (s : SyncState C) {m : SyncMessage C}
    (hm : m.WellFormed) (c : C) :
    c ∈ (s.step m).document ↔ c ∈ s.document ∨
      (∃ snapshot ∈ m.snapshot, newer snapshot s.latestSnapshot ∧
        c ∈ snapshot.state) ∨
      ∃ rootId ∈ m.changeId, ∃ root ∈ m.changes, ∃ n,
        Reached (s.adoptSnapshot m.snapshot).known rootId root c n ∧
          n.kind = .document := by
  rw [step, sync, ← or_assoc, ← mem_document_adoptSnapshot]
  cases hchanges : m.changes with
  | none => simp
  | some root =>
      obtain ⟨rootId, hroot⟩ := Option.isSome_iff_exists.1
        (hm.rooted (by rw [hchanges]; rfl))
      obtain ⟨-, hdocument⟩ :=
        (s.adoptSnapshot m.snapshot).syncDocumentChanges_spec
          (hm.inline rootId hroot root hchanges)
          (hm.addressed rootId hroot root hchanges)
      simp only [hroot, hdocument, Option.mem_def, Option.some.injEq,
        exists_eq_left']

theorem step_latestSnapshot (s : SyncState C) {m : SyncMessage C}
    (hm : m.WellFormed) :
    (s.step m).latestSnapshot =
      (s.adoptSnapshot m.snapshot).latestSnapshot := by
  rw [step, sync]
  cases hchanges : m.changes with
  | none => rfl
  | some root =>
      obtain ⟨rootId, hroot⟩ := Option.isSome_iff_exists.1
        (hm.rooted (by rw [hchanges]; rfl))
      obtain ⟨hlatest, -⟩ :=
        (s.adoptSnapshot m.snapshot).syncDocumentChanges_spec
          (hm.inline rootId hroot root hchanges)
          (hm.addressed rootId hroot root hchanges)
      rw [hroot]
      exact hlatest

/-! ## The latest snapshot -/

/-- What snapshots are compared by. -/
def snapshotKey (snapshot : Snapshot C) : ℕ ×ₗ WithBot C :=
  toLex (snapshot.compactedCount, snapshot.lastChangeNodeCID)

theorem newer_some_iff {incoming latest : Snapshot C} :
    newer incoming (some latest) = true ↔
      snapshotKey latest < snapshotKey incoming := by
  simp only [newer, Bool.or_eq_true, Bool.and_eq_true, decide_eq_true_eq,
    snapshotKey, Prod.Lex.toLex_lt_toLex]
  exact or_congr Iff.rfl (and_congr eq_comm Iff.rfl)

/-- The latest snapshot is one of the messages' that no other one beats. -/
def Latest (messages : List (SyncMessage C)) (s : SyncState C) : Prop :=
  match s.latestSnapshot with
  | none => ∀ m ∈ messages, m.snapshot = none
  | some latest => (∃ m ∈ messages, m.snapshot = some latest) ∧
      ∀ m ∈ messages, ∀ snapshot ∈ m.snapshot,
        snapshotKey snapshot ≤ snapshotKey latest

theorem Latest.step {messages : List (SyncMessage C)} {s : SyncState C}
    (h : Latest messages s) {m : SyncMessage C} (hm : m.WellFormed) :
    Latest (messages ++ [m]) (s.step m) := by
  have hlatest := s.step_latestSnapshot hm
  rw [Latest] at h
  rw [Latest, hlatest]
  cases hsnapshot : m.snapshot with
  | none =>
      rw [adoptSnapshot]
      cases hold : s.latestSnapshot with
      | none =>
          rw [hold] at h
          intro m' hm'
          rcases List.mem_append.1 hm' with hm' | hm'
          · exact h m' hm'
          · rw [List.mem_singleton.1 hm', hsnapshot]
      | some latest =>
          rw [hold] at h
          obtain ⟨⟨m₀, hm₀, heq⟩, hmax⟩ := h
          refine ⟨⟨m₀, List.mem_append_left _ hm₀, heq⟩, ?_⟩
          intro m' hm' snapshot hmem
          rcases List.mem_append.1 hm' with hm' | hm'
          · exact hmax m' hm' snapshot hmem
          · rw [List.mem_singleton.1 hm', hsnapshot] at hmem
            cases hmem
  | some incoming =>
      rw [adoptSnapshot]
      cases hold : s.latestSnapshot with
      | none =>
          rw [hold] at h
          simp only [newer, if_true]
          refine ⟨⟨m, by simp, hsnapshot⟩, ?_⟩
          intro m' hm' snapshot hmem
          rcases List.mem_append.1 hm' with hm' | hm'
          · rw [h m' hm'] at hmem
            cases hmem
          · rw [List.mem_singleton.1 hm', hsnapshot] at hmem
            cases hmem
            exact le_rfl
      | some latest =>
          rw [hold] at h
          obtain ⟨⟨m₀, hm₀, heq⟩, hmax⟩ := h
          by_cases hnewer : newer incoming (some latest) = true
          · have hlt := newer_some_iff.1 hnewer
            rw [if_pos hnewer]
            refine ⟨⟨m, by simp, hsnapshot⟩, ?_⟩
            intro m' hm' snapshot hmem
            rcases List.mem_append.1 hm' with hm' | hm'
            · exact (hmax m' hm' snapshot hmem).trans hlt.le
            · rw [List.mem_singleton.1 hm', hsnapshot] at hmem
              cases hmem
              exact le_rfl
          · have hle : snapshotKey incoming ≤ snapshotKey latest := by
              rw [← not_lt, ← newer_some_iff]
              exact hnewer
            rw [if_neg hnewer, hold]
            refine ⟨⟨m₀, List.mem_append_left _ hm₀, heq⟩, ?_⟩
            intro m' hm' snapshot hmem
            rcases List.mem_append.1 hm' with hm' | hm'
            · exact hmax m' hm' snapshot hmem
            · rw [List.mem_singleton.1 hm', hsnapshot] at hmem
              cases hmem
              exact hle

theorem Latest.key_eq {messages messages' : List (SyncMessage C)}
    {s s' : SyncState C} (h : Latest messages s) (h' : Latest messages' s')
    (hperm : messages.Perm messages') :
    s.latestSnapshot.map snapshotKey = s'.latestSnapshot.map snapshotKey := by
  rw [Latest] at h h'
  cases hlatest : s.latestSnapshot with
  | none =>
      rw [hlatest] at h
      cases hlatest' : s'.latestSnapshot with
      | none => rfl
      | some latest' =>
          rw [hlatest'] at h'
          obtain ⟨⟨m, hm, heq⟩, -⟩ := h'
          rw [h m (hperm.mem_iff.2 hm)] at heq
          cases heq
  | some latest =>
      rw [hlatest] at h
      obtain ⟨⟨m, hm, heq⟩, hmax⟩ := h
      cases hlatest' : s'.latestSnapshot with
      | none =>
          rw [hlatest'] at h'
          rw [h' m (hperm.mem_iff.1 hm)] at heq
          cases heq
      | some latest' =>
          rw [hlatest'] at h'
          obtain ⟨⟨m', hm', heq'⟩, hmax'⟩ := h'
          have hle := hmax m' (hperm.mem_iff.2 hm') latest' heq'
          have hge := hmax' m (hperm.mem_iff.1 hm) latest heq
          exact congrArg some (le_antisymm hge hle)

/-! ## Runs -/

/-- The document has exactly the changes of the messages, and the latest
snapshot is the greatest one. -/
def Complete (messages : List (SyncMessage C)) (s : SyncState C) : Prop :=
  (∀ c, c ∈ s.document ↔ ∃ m ∈ messages, m.Carries c) ∧ Latest messages s

/-- A message keeps the document complete exactly if it is covered. -/
theorem Complete.step_iff {messages : List (SyncMessage C)}
    {s : SyncState C} (h : Complete messages s) {m : SyncMessage C}
    (hm : m.WellFormed) :
    Complete (messages ++ [m]) (s.step m) ↔ s.Covered m := by
  have hcarried : ∀ c, (∃ m' ∈ messages ++ [m], m'.Carries c) ↔
      c ∈ s.document ∨ m.Carries c := by
    intro c
    simp only [List.mem_append, List.mem_singleton, or_and_right, exists_or,
      exists_eq_left, h.1 c]
  constructor
  · intro hcomplete c hcarries
    have hmem := (hcomplete.1 c).2 ((hcarried c).2 (Or.inr hcarries))
    exact (s.mem_document_step hm c).1 hmem
  · intro hcovered
    refine ⟨?_, h.2.step hm⟩
    intro c
    rw [hcarried, s.mem_document_step hm]
    constructor
    · rintro (hold | ⟨snapshot, hsnapshot, -, hstate⟩ |
        ⟨rootId, hroot, root, hchanges, n, hreached, hkind⟩)
      · exact Or.inl hold
      · exact Or.inr (Or.inl ⟨snapshot, hsnapshot, hstate⟩)
      · exact Or.inr (Or.inr ⟨rootId, hroot, root, hchanges, n,
          hreached.occurs, hkind⟩)
    · rintro (hold | hcarries)
      · exact Or.inl hold
      · exact hcovered c hcarries

theorem complete_fresh : Complete ([] : List (SyncMessage C)) fresh := by
  refine ⟨?_, ?_⟩
  · simp [fresh]
  · simp [Latest, fresh]

theorem complete_iff_guarded (applied : List (SyncMessage C)) :
    ∀ (messages : List (SyncMessage C)) (s : SyncState C),
      Complete applied s → (∀ m ∈ messages, m.WellFormed) →
      ((∀ k, Complete (applied ++ messages.take k)
        (exec step s (messages.take k))) ↔
        Guarded step Covered s messages) := by
  intro messages
  induction messages generalizing applied with
  | nil =>
      intro s h _
      simpa [Guarded] using h
  | cons m messages ih =>
      intro s h hwf
      have hm := hwf m (by simp)
      have hrest := ih (applied ++ [m]) (s.step m)
      constructor
      · intro hall
        have hnext : Complete (applied ++ [m]) (s.step m) := by
          simpa using hall 1
        refine ⟨(h.step_iff hm).1 hnext, (hrest hnext
          fun m' hm' => hwf m' (by simp [hm'])).1 ?_⟩
        intro k
        simpa using hall (k + 1)
      · rintro ⟨hcovered, hguarded⟩ k
        have hnext := (h.step_iff hm).2 hcovered
        cases k with
        | zero => simpa using h
        | succ k =>
            simpa using (hrest hnext
              fun m' hm' => hwf m' (by simp [hm'])).2 hguarded k

/-- In a run of well-formed messages the document has exactly the changes of
the messages applied so far, at every time, if and only if every message is
covered when it is applied; and then another such order of the messages leads
to the same document and the same latest snapshot. -/
theorem sync_order_iff_covered {messages messages' : List (SyncMessage C)}
    (hwf : ∀ m ∈ messages, m.WellFormed)
    (hperm : messages.Perm messages') :
    ((∀ k, Complete (messages.take k)
        (exec step fresh (messages.take k))) ↔
      Guarded step Covered fresh messages) ∧
    (Guarded step Covered fresh messages →
      Guarded step Covered fresh messages' →
      (exec step fresh messages).document =
          (exec step fresh messages').document ∧
        (exec step fresh messages).latestSnapshot.map snapshotKey =
          (exec step fresh messages').latestSnapshot.map snapshotKey) := by
  have hiff : ∀ l : List (SyncMessage C), (∀ m ∈ l, m.WellFormed) →
      ((∀ k, Complete (l.take k) (exec step fresh (l.take k))) ↔
        Guarded step Covered fresh l) := by
    intro l hl
    simpa using complete_iff_guarded [] l fresh complete_fresh hl
  refine ⟨hiff messages hwf, ?_⟩
  intro hguarded hguarded'
  have hwf' : ∀ m ∈ messages', m.WellFormed :=
    fun m hm => hwf m (hperm.mem_iff.2 hm)
  have hcomplete : Complete messages (exec step fresh messages) := by
    have h := (hiff messages hwf).2 hguarded messages.length
    rwa [List.take_length] at h
  have hcomplete' : Complete messages' (exec step fresh messages') := by
    have h := (hiff messages' hwf').2 hguarded' messages'.length
    rwa [List.take_length] at h
  refine ⟨?_, hcomplete.2.key_eq hcomplete'.2 hperm⟩
  ext c
  rw [hcomplete.1, hcomplete'.1]
  simp only [hperm.mem_iff]

/-- A message with a single document change, and maybe a snapshot up to it. -/
def singleChange (cid : ℕ) (snapshot : Option (Snapshot ℕ)) :
    SyncMessage ℕ :=
  ⟨some cid, some (.mk .document true .absent), snapshot⟩

theorem occurs_single {cid c : ℕ} {kind : NodeKind} {n : ChangeNode ℕ}
    (h : Occurs cid (.mk kind true .absent) c n) :
    c = cid ∧ n = .mk kind true .absent := by
  induction h with
  | root _ => exact ⟨rfl, rfl⟩
  | child _ hchildren _ _ ih =>
      rw [ih.2] at hchildren
      cases hchildren

theorem single_wellFormed (cid : ℕ) (kind : NodeKind)
    (snapshot : Option (Snapshot ℕ)) :
    (⟨some cid, some (.mk kind true .absent), snapshot⟩ :
      SyncMessage ℕ).WellFormed where
  rooted := fun _ => rfl
  inline := by
    rintro rootId ⟨⟩ root ⟨⟩ c n h
    rw [(occurs_single h).2]
    simp [ChangeNode.children]
  addressed := by
    rintro rootId ⟨⟩ root ⟨⟩ c n n' h h'
    rw [(occurs_single h).2, (occurs_single h').2]
    exact ⟨rfl, fun nodes nodes' hnodes _ => by cases hnodes⟩

theorem singleChange_covered {s : SyncState ℕ} {cid : ℕ}
    (h : s.known cid = false) : s.Covered (singleChange cid none) := by
  intro c hc
  rcases hc with ⟨snapshot, hsnapshot, -⟩ | ⟨rootId, hroot, root, hchanges, n,
    hoccurs, hkind⟩
  · cases hsnapshot
  · cases hroot
    cases hchanges
    obtain ⟨rfl, rfl⟩ := occurs_single hoccurs
    exact Or.inr (Or.inr ⟨_, rfl, _, rfl, _, Reached.root h, rfl⟩)

/-- Two concurrent changes in either order. -/
theorem concurrent_changes_order :
    (exec step fresh [singleChange 1 none, singleChange 2 none]).document =
        (exec step fresh [singleChange 2 none, singleChange 1 none]).document ∧
      (exec step fresh [singleChange 1 none,
          singleChange 2 none]).latestSnapshot.map snapshotKey =
        (exec step fresh [singleChange 2 none,
          singleChange 1 none]).latestSnapshot.map snapshotKey := by
  have hwf : ∀ m ∈ [singleChange 1 none, singleChange 2 none],
      m.WellFormed := by
    intro m hm
    rcases List.mem_pair.1 hm with rfl | rfl
    · exact single_wellFormed 1 _ none
    · exact single_wellFormed 2 _ none
  refine (sync_order_iff_covered hwf (List.Perm.swap _ _ [])).2 ?_ ?_
  · exact ⟨singleChange_covered rfl, singleChange_covered (by decide),
      trivial⟩
  · exact ⟨singleChange_covered rfl, singleChange_covered (by decide),
      trivial⟩

/-- Two pruned responders with concurrent histories of five and three
changes. -/
def prunedHistories : List (SyncMessage ℕ) :=
  [singleChange 5 (some ⟨{1, 2, 3, 4, 5}, (5 : ℕ), 5⟩),
    singleChange 13 (some ⟨{11, 12, 13}, (13 : ℕ), 3⟩)]

/-- The smaller snapshot is dropped when it comes second, and its changes with
it. -/
theorem prunedHistories_order_matters :
    ¬ ∀ messages messages' : List (SyncMessage ℕ),
      (∀ m ∈ messages, m.WellFormed) → messages.Perm messages' →
      (exec step fresh messages).document =
        (exec step fresh messages').document := by
  intro h
  have hwf : ∀ m ∈ prunedHistories, m.WellFormed := by
    intro m hm
    rcases List.mem_pair.1 hm with rfl | rfl
    · exact single_wellFormed _ _ _
    · exact single_wellFormed _ _ _
  have hsame := h prunedHistories prunedHistories.reverse hwf
    (List.reverse_perm _).symm
  exact absurd hsame (by decide +kernel)

end SyncState

end Collabswarm.Document
