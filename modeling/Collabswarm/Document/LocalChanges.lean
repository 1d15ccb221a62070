import Collabswarm.Document.SyncOrder
import Collabswarm.Support.Lists

/-!
# Concurrent local changes

`_makeChange` with the helpers of `merkle-cross-links.ts`.  A call awaits
`_putBlock`, builds its change node over `_lastSyncMessage`, awaits the
signature and then writes `_lastSyncMessage`.  Between the last two another
call may write it; what it wrote survives only where the node that is being
signed links to it.
-/

namespace Collabswarm.Document

/-- A CID with the kind of its change. -/
abbrev RecentTip (C : Type) := C × NodeKind

/-- `MAX_RECENT_TIPS`. -/
def maxRecentTips : ℕ := 4

/-- `MAX_CROSS_LINKS`. -/
def maxCrossLinks : ℕ := 3

section CrossLinks

variable {C : Type} [DecidableEq C]

/-- The loop of `selectCrossLinks` over the tips from the newest on. -/
def selectLoop (primaryParentId newCid : C) (maxCrossLinks : ℕ) :
    List (RecentTip C) → List (RecentTip C) → List (RecentTip C)
  | out, [] => out
  | out, tip :: rest =>
      if maxCrossLinks ≤ out.length then out
      else if tip.1 = primaryParentId then
        selectLoop primaryParentId newCid maxCrossLinks out rest
      else if tip.1 = newCid then
        selectLoop primaryParentId newCid maxCrossLinks out rest
      -- `seen` holds the CIDs of `out`
      else if tip.1 ∈ out.map Prod.fst then
        selectLoop primaryParentId newCid maxCrossLinks out rest
      else selectLoop primaryParentId newCid maxCrossLinks (out ++ [tip]) rest

/-- `selectCrossLinks`. -/
def selectCrossLinks (recentTips : List (RecentTip C))
    (primaryParentId newCid : C) (maxCrossLinks : ℕ) : List (RecentTip C) :=
  selectLoop primaryParentId newCid maxCrossLinks [] recentTips.reverse

/-- `trackTipInList`. -/
def trackTipInList (recentTips : List (RecentTip C)) (entry : RecentTip C)
    (maxRecentTips : ℕ) : List (RecentTip C) :=
  let tips := recentTips.eraseP (fun tip => tip.1 = entry.1) ++ [entry]
  tips.drop (tips.length - maxRecentTips)

/-- Append an entry to a map of children. -/
def ChildList.concat (cid : C) (node : ChangeNode C) :
    ChildList C → ChildList C
  | .nil => .cons cid node .nil
  | .cons cid' node' rest => .cons cid' node' (rest.concat cid node)

/-- Add a cross-link as a deferred leaf, unless the CID is a child already. -/
def ChildList.link (children : ChildList C) (tip : RecentTip C) :
    ChildList C :=
  if tip.1 ∈ children.toList.map Prod.fst then children
  else children.concat tip.1 (.mk tip.2 false .absent)

/-- The change node that `_makeChange` builds over the last sync message. -/
def makeChangeNode (lastSyncMessage : Option (C × ChangeNode C))
    (recentTips : List (RecentTip C)) (hash : C) (kind : NodeKind) :
    ChangeNode C :=
  match lastSyncMessage with
  | none => .mk kind true .absent
  | some (primaryParentId, changes) =>
      .mk kind true (.present
        ((selectCrossLinks recentTips primaryParentId hash maxCrossLinks).foldl
          ChildList.link (.cons primaryParentId changes .nil)))

end CrossLinks

/-- A call of `_makeChange`: it awaits `_putBlock`, or the signature of the
message it built when `_lastSyncMessage` had been written `writesSeen` times,
or it has written `_lastSyncMessage`. -/
inductive MakeChange (C : Type) where
  | storing (hash : C) (kind : NodeKind)
  | signing (hash : C) (changeNode : ChangeNode C) (writesSeen : ℕ)
  | written (hash : C)

/-- The CID that a call produces. -/
def MakeChange.hash {C : Type} : MakeChange C → C
  | .storing hash _ => hash
  | .signing hash _ _ => hash
  | .written hash => hash

/-- The part of a document that local changes read and write, with all calls
of `_makeChange`.  `writes` lists the CIDs that were written to
`_lastSyncMessage`. -/
structure LocalChanges (C : Type) where
  lastSyncMessage : Option (C × ChangeNode C)
  recentTips : List (RecentTip C)
  calls : List (MakeChange C)
  writes : List C

/-- A call of `_makeChange` starts, or one that waits goes on. -/
inductive MakeChangeEvent (C : Type) where
  | start (hash : C) (kind : NodeKind)
  | resume (call : ℕ)

namespace LocalChanges

variable {C : Type}

/-- The document before the calls. -/
def new (lastSyncMessage : Option (C × ChangeNode C))
    (recentTips : List (RecentTip C)) : LocalChanges C :=
  ⟨lastSyncMessage, recentTips, [], []⟩

/-- One event. -/
def step [DecidableEq C] (s : LocalChanges C) :
    MakeChangeEvent C → LocalChanges C
  | .start hash kind => { s with calls := s.calls ++ [.storing hash kind] }
  | .resume i =>
      match s.calls[i]? with
      | some (.storing hash kind) =>
          let changeNode := makeChangeNode s.lastSyncMessage s.recentTips hash
            kind
          { s with
            recentTips := trackTipInList s.recentTips (hash, kind)
              maxRecentTips
            calls := s.calls.set i (.signing hash changeNode s.writes.length) }
      | some (.signing hash changeNode _) =>
          { s with
            lastSyncMessage := some (hash, changeNode)
            calls := s.calls.set i (.written hash)
            writes := s.writes ++ [hash] }
      | _ => s

/-- A CID occurs in a message. -/
def InMessage (message : Option (C × ChangeNode C)) (c : C) : Prop :=
  ∃ m ∈ message, ∃ n, Occurs m.1 m.2 c n

/-- Every CID that a finished call produced occurs in the served tree. -/
def Served (s : LocalChanges C) : Prop :=
  ∀ (i : ℕ) hash, s.calls[i]? = some (.written hash) →
    InMessage s.lastSyncMessage hash

/-- When a call writes its message, every CID that was written since the call
read `_lastSyncMessage` occurs in its message. -/
def Linked (s : LocalChanges C) : MakeChangeEvent C → Prop
  | .start _ _ => True
  | .resume i => ∀ hash changeNode writesSeen,
      s.calls[i]? = some (.signing hash changeNode writesSeen) →
      ∀ c ∈ s.writes.drop writesSeen, InMessage (some (hash, changeNode)) c

/-! ## What a new node contains -/

theorem toList_concat (cid : C) (node : ChangeNode C)
    (children : ChildList C) :
    (children.concat cid node).toList = children.toList ++ [(cid, node)] := by
  cases children with
  | nil => rfl
  | cons cid' node' rest =>
      rw [ChildList.concat, ChildList.toList, toList_concat cid node rest]
      rfl

section Build

variable [DecidableEq C]

theorem mem_link {entry : C × ChangeNode C} {children : ChildList C}
    (h : entry ∈ children.toList) (tip : RecentTip C) :
    entry ∈ (children.link tip).toList := by
  rw [ChildList.link]
  split
  · exact h
  · rw [toList_concat]
    exact List.mem_append_left _ h

theorem mem_foldl_link {entry : C × ChangeNode C} (tips : List (RecentTip C)) :
    ∀ {children : ChildList C}, entry ∈ children.toList →
      entry ∈ (tips.foldl ChildList.link children).toList := by
  induction tips with
  | nil =>
      intro children h
      exact h
  | cons tip tips ih =>
      intro children h
      exact ih (mem_link h tip)

/-- A new node is over the message it was built on. -/
theorem InMessage.makeChangeNode {message : Option (C × ChangeNode C)} {c : C}
    (h : InMessage message c) (tips : List (RecentTip C)) (hash : C)
    (kind : NodeKind) :
    InMessage (some (hash, makeChangeNode message tips hash kind)) c := by
  obtain ⟨⟨parent, changes⟩, rfl, n, hoccurs⟩ := h
  refine ⟨_, rfl, n, ?_⟩
  refine Reached.of_child rfl rfl (mem_foldl_link _ ?_) hoccurs
  rw [ChildList.toList]
  exact List.mem_cons_self

end Build

/-! ## Overlapping calls -/

/-- The writes are those of the finished calls, the served tree contains them,
and a message that is being signed contains those before it was built. -/
structure Kept (s : LocalChanges C) : Prop where
  written : ∀ c, c ∈ s.writes ↔ ∃ i : ℕ, s.calls[i]? = some (.written c)
  served : ∀ c ∈ s.writes, InMessage s.lastSyncMessage c
  signing : ∀ (i : ℕ) hash changeNode writesSeen,
    s.calls[i]? = some (.signing hash changeNode writesSeen) →
    writesSeen ≤ s.writes.length ∧
      ∀ c ∈ s.writes.take writesSeen, InMessage (some (hash, changeNode)) c

theorem new_kept (message : Option (C × ChangeNode C))
    (tips : List (RecentTip C)) : (new message tips).Kept where
  written := by simp [new]
  served := by simp [new]
  signing := by simp [new]

theorem Kept.allServed {s : LocalChanges C} (h : s.Kept) : s.Served := by
  intro i hash hcall
  exact h.served hash ((h.written hash).2 ⟨i, hcall⟩)

/-- A call that replaces one that has not written changes none that has. -/
theorem written_set_iff {calls : List (MakeChange C)} {i : ℕ}
    {old : MakeChange C} (hold : calls[i]? = some old)
    (hne : ∀ hash, old ≠ .written hash) (call : MakeChange C) (c : C) :
    (∃ j : ℕ, (calls.set i call)[j]? = some (.written c)) ↔
      call = .written c ∨ ∃ j : ℕ, calls[j]? = some (.written c) := by
  have hlt := (List.getElem?_eq_some_iff.1 hold).1
  constructor
  · rintro ⟨j, hj⟩
    rcases getElem?_set_cases hj with ⟨-, heq⟩ | hbefore
    · exact Or.inl heq.symm
    · exact Or.inr ⟨j, hbefore⟩
  · rintro (rfl | ⟨j, hj⟩)
    · exact ⟨i, List.getElem?_set_self hlt⟩
    · refine ⟨j, ?_⟩
      rw [List.getElem?_set_ne]
      · exact hj
      · rintro rfl
        rw [hold, Option.some.injEq] at hj
        exact hne c hj

section Step

variable [DecidableEq C]

/-- A call starts. -/
theorem Kept.start {s : LocalChanges C} (h : s.Kept) (hash : C)
    (kind : NodeKind) : (s.step (.start hash kind)).Kept where
  written := by
    intro c
    refine (h.written c).trans ?_
    constructor
    · rintro ⟨i, hi⟩
      exact ⟨i, List.getElem?_append_left
        (List.getElem?_eq_some_iff.1 hi).1 ▸ hi⟩
    · rintro ⟨i, hi⟩
      rcases getElem?_concat hi with ⟨-, hold⟩ | ⟨-, hnew⟩
      · exact ⟨i, hold⟩
      · cases hnew
  served := h.served
  signing := by
    intro i hash' changeNode writesSeen hi
    rcases getElem?_concat hi with ⟨-, hold⟩ | ⟨-, hnew⟩
    · exact h.signing i hash' changeNode writesSeen hold
    · cases hnew

/-- A call builds its node. -/
theorem Kept.build {s : LocalChanges C} (h : s.Kept) {i : ℕ} {hash : C}
    {kind : NodeKind} (hcall : s.calls[i]? = some (.storing hash kind)) :
    (s.step (.resume i)).Kept := by
  simp only [step, hcall]
  refine ⟨?_, h.served, ?_⟩
  · intro c
    rw [h.written, written_set_iff hcall (by simp)]
    simp
  · intro j hash' changeNode writesSeen hj
    rcases getElem?_set_cases hj with ⟨-, hnew⟩ | hold
    · cases hnew
      refine ⟨le_rfl, ?_⟩
      intro c hc
      rw [List.take_length] at hc
      exact (h.served c hc).makeChangeNode _ _ _
    · exact h.signing j hash' changeNode writesSeen hold

/-- A call writes its message, which contains all writes since it was built. -/
theorem Kept.write {s : LocalChanges C} (h : s.Kept) {i : ℕ} {hash : C}
    {changeNode : ChangeNode C} {writesSeen : ℕ}
    (hcall : s.calls[i]? = some (.signing hash changeNode writesSeen))
    (hlinked : ∀ c ∈ s.writes.drop writesSeen,
      InMessage (some (hash, changeNode)) c) :
    (s.step (.resume i)).Kept := by
  obtain ⟨-, hseen⟩ := h.signing i hash changeNode writesSeen hcall
  simp only [step, hcall]
  refine ⟨?_, ?_, ?_⟩
  · intro c
    rw [List.mem_append, List.mem_singleton, h.written,
      written_set_iff hcall (by simp), MakeChange.written.injEq, or_comm,
      eq_comm]
  · intro c hc
    rcases List.mem_append.1 hc with hold | hnew
    · rw [← List.take_append_drop writesSeen s.writes] at hold
      rcases List.mem_append.1 hold with hbefore | hsince
      · exact hseen c hbefore
      · exact hlinked c hsince
    · rw [List.mem_singleton] at hnew
      subst hnew
      exact ⟨_, rfl, changeNode, Reached.root rfl⟩
  · intro j hash' changeNode' writesSeen' hj
    rcases getElem?_set_cases hj with ⟨-, hnew⟩ | hold
    · cases hnew
    · obtain ⟨hle, hall⟩ := h.signing j hash' changeNode' writesSeen' hold
      refine ⟨by rw [List.length_append]; omega, ?_⟩
      rw [List.take_append_of_le_length hle]
      exact hall

/-- The three kinds of steps, and those that do nothing. -/
theorem Kept.step {s : LocalChanges C} (h : s.Kept) (event : MakeChangeEvent C)
    (hlinked : s.Linked event) : (s.step event).Kept := by
  cases event with
  | start hash kind => exact h.start hash kind
  | resume i =>
      rcases hcall : s.calls[i]? with _ | ⟨hash, kind⟩ |
        ⟨hash, changeNode, writesSeen⟩ | hash
      · simpa only [LocalChanges.step, hcall] using h
      · exact h.build hcall
      · exact h.write hcall (hlinked hash changeNode writesSeen hcall)
      · simpa only [LocalChanges.step, hcall] using h

/-- Where all finished calls stay served, the step linked to what it
replaced. -/
theorem Kept.linked_of_served {s : LocalChanges C} (h : s.Kept)
    (event : MakeChangeEvent C) (hserved : (s.step event).Served) :
    s.Linked event := by
  cases event with
  | start hash kind => trivial
  | resume i =>
      intro hash changeNode writesSeen hcall c hc
      obtain ⟨j, hj⟩ := (h.written c).1 (List.mem_of_mem_drop hc)
      simp only [LocalChanges.step, hcall] at hserved
      obtain ⟨j', hj'⟩ := (written_set_iff hcall (by simp) (.written hash)
        c).2 (Or.inr ⟨j, hj⟩)
      exact hserved j' c hj'

theorem hash_mem_step (s : LocalChanges C) (event : MakeChangeEvent C) {c : C}
    (h : c ∈ s.calls.map MakeChange.hash ∨ ∃ kind, event = .start c kind) :
    c ∈ (s.step event).calls.map MakeChange.hash := by
  rcases h with hold | ⟨kind, rfl⟩
  · obtain ⟨call, hcall, rfl⟩ := List.mem_map.1 hold
    obtain ⟨j, hj⟩ := List.getElem?_of_mem hcall
    cases event with
    | start hash kind =>
        exact List.mem_map_of_mem (List.mem_append_left _ hcall)
    | resume i =>
        have hset : ∀ old new : MakeChange C, s.calls[i]? = some old →
            new.hash = old.hash →
            call.hash ∈ (s.calls.set i new).map MakeChange.hash := by
          intro old new hold hhash
          have hlt := (List.getElem?_eq_some_iff.1 hold).1
          by_cases hij : i = j
          · subst hij
            rw [hold, Option.some.injEq] at hj
            rw [← hj, ← hhash]
            exact List.mem_map_of_mem (List.mem_set hlt new)
          · apply List.mem_map_of_mem
            apply List.mem_of_getElem?
            rw [List.getElem?_set_ne hij]
            exact hj
        rcases hi : s.calls[i]? with _ | ⟨hash, kind⟩ |
          ⟨hash, changeNode, writesSeen⟩ | hash
        · simpa only [LocalChanges.step, hi] using hold
        · simp only [LocalChanges.step, hi]
          exact hset _ _ hi rfl
        · simp only [LocalChanges.step, hi]
          exact hset _ _ hi rfl
        · simpa only [LocalChanges.step, hi] using hold
  · rw [LocalChanges.step, List.map_append]
    exact List.mem_append_right _ (List.mem_singleton.2 rfl)

/-- Every started call is among the calls. -/
theorem hash_mem_exec {c : C} :
    ∀ (events : List (MakeChangeEvent C)) (s : LocalChanges C),
      (c ∈ s.calls.map MakeChange.hash ∨ ∃ kind, .start c kind ∈ events) →
      c ∈ (exec LocalChanges.step s events).calls.map MakeChange.hash := by
  intro events
  induction events with
  | nil =>
      rintro s (h | ⟨kind, h⟩)
      · exact h
      · cases h
  | cons event events ih =>
      intro s h
      refine ih (s.step event) ?_
      rcases h with hold | ⟨kind, hstart⟩
      · exact Or.inl (s.hash_mem_step event (Or.inl hold))
      · rcases List.mem_cons.1 hstart with rfl | hlater
        · exact Or.inl (s.hash_mem_step _ (Or.inr ⟨kind, rfl⟩))
        · exact Or.inr ⟨kind, hlater⟩

/-- However the calls of `_makeChange` interleave: all finished calls stay in
the served tree if and only if every call that writes its message linked to
what was written since it read `_lastSyncMessage`.  Then nothing is lost when
all have finished. -/
theorem served_iff_linked (message : Option (C × ChangeNode C))
    (tips : List (RecentTip C)) (events : List (MakeChangeEvent C)) :
    ((∀ k, (exec LocalChanges.step (new message tips)
        (events.take k)).Served) ↔
      Guarded LocalChanges.step Linked (new message tips) events) ∧
    (Guarded LocalChanges.step Linked (new message tips) events →
      (∀ call ∈ (exec LocalChanges.step (new message tips) events).calls,
        ∃ hash, call = .written hash) →
      ∀ hash kind, .start hash kind ∈ events →
        InMessage (exec LocalChanges.step (new message tips)
          events).lastSyncMessage hash) := by
  have hiff : (∀ k, (exec LocalChanges.step (new message tips)
      (events.take k)).Served) ↔
      Guarded LocalChanges.step Linked (new message tips) events := by
    refine forall_exec_take_iff_guarded
      (fun (s : LocalChanges C) (h : s.Kept) => h.allServed) ?_ ?_ events _
      (new_kept message tips)
    · intro s event h
      exact ⟨h.linked_of_served event, fun hlinked =>
        (h.step event hlinked).allServed⟩
    · intro s event h hlinked
      exact h.step event hlinked
  refine ⟨hiff, ?_⟩
  intro hguarded hfinished hash kind hstart
  have hserved := hiff.2 hguarded events.length
  rw [List.take_length] at hserved
  obtain ⟨call, hcall, rfl⟩ := List.mem_map.1
    (hash_mem_exec events (new message tips) (Or.inr ⟨kind, hstart⟩))
  obtain ⟨hash, rfl⟩ := hfinished call hcall
  obtain ⟨i, hi⟩ := List.getElem?_of_mem hcall
  exact hserved i hash hi

end Step

/-- Two calls start, build their nodes one after the other and then write in
the same order. -/
def overlapping : List (MakeChangeEvent ℕ) :=
  [.start 1 .document, .start 2 .document, .resume 0, .resume 1, .resume 0,
    .resume 1]

/-- Over an existing message the second call links to the first one. -/
theorem served_iff_linked_overlapping :
    InMessage (exec step (new (some (0, .mk .document true .absent)) [])
      overlapping).lastSyncMessage 1 := by
  refine (served_iff_linked _ _ _).2 ?_ ?_ 1 .document (by simp [overlapping])
  · refine ⟨trivial, trivial, ?_, ?_, ?_, ?_, trivial⟩
    · intro hash changeNode writesSeen h
      cases h
    · intro hash changeNode writesSeen h
      cases h
    · intro hash changeNode writesSeen h c hc
      cases h
      cases hc
    · intro hash changeNode writesSeen h c hc
      cases h
      obtain rfl : c = 1 := List.mem_singleton.1 hc
      exact ⟨_, rfl, .mk .document false .absent, Reached.child
        (Reached.root rfl) rfl (List.mem_cons_of_mem _
          (List.mem_singleton.2 rfl)) rfl⟩
  · intro call hcall
    have hcalls : call ∈ [MakeChange.written 1, MakeChange.written 2] := hcall
    rcases List.mem_pair.1 hcalls with rfl | rfl
    · exact ⟨1, rfl⟩
    · exact ⟨2, rfl⟩

/-- In a new document neither call links to the other, and the first change is
not served. -/
theorem overlapping_lost :
    ¬ ∀ (message : Option (ℕ × ChangeNode ℕ)) (tips : List (RecentTip ℕ))
      (events : List (MakeChangeEvent ℕ)),
      (∀ call ∈ (exec step (new message tips) events).calls,
        ∃ hash, call = .written hash) →
      ∀ hash kind, .start hash kind ∈ events →
        InMessage (exec step (new message tips) events).lastSyncMessage
          hash := by
  intro h
  have hserved := h none [] overlapping ?_ 1 .document (by simp [overlapping])
  · obtain ⟨m, hm, n, hoccurs⟩ := hserved
    cases hm
    exact absurd (SyncState.occurs_single hoccurs).1 (by decide)
  · intro call hcall
    have hcalls : call ∈ [MakeChange.written 1, MakeChange.written 2] := hcall
    rcases List.mem_pair.1 hcalls with rfl | rfl
    · exact ⟨1, rfl⟩
    · exact ⟨2, rfl⟩

end LocalChanges

end Collabswarm.Document
