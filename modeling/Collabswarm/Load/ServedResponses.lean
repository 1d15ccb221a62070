import Collabswarm.Load.ServedFrontier
import Collabswarm.Merkle.SharedNodes
import Collabswarm.Support.Transition

/-!
# Load responses while the document changes

`handleLoadRequestData` and `handleSnapshotLoadRequestData` take the cached
message, await the keychain changes, compute the tips, await the signature and
serialize the response.  In between local changes and remote syncs may replace
the cached message, snapshots may replace the latest one, and pruning rewrites
the nodes that the response shares with the cached tree.  A handler that fails
sends no response; its call stays where it is.
-/

namespace Collabswarm.Load

open Document (NodeKind RecentTip maxRecentTips trackTipInList)
open Merkle (ChangeTree NodeData Entry SharedTree boundaryCids
  computeServedFrontier collectReferencedAncestors cutObjects cutEntry cutNode)

/-- The part of the compaction settings that `snapshot` reads. -/
structure CompactionConfig where
  pruneAfterSnapshot : Bool
  keepRecentNodes : ℕ

/-- A message without its other fields: the root with its tree, if any. -/
abbrev ServedMessage (C : Type) := Option (Entry C (NodeData ℕ))

/-- The fields of a load response that a loader checks its tips against, and
the tips. -/
structure LoadResponse (C : Type) where
  message : ServedMessage C
  lastChangeNodeCID : Option C
  tips : List C

/-- A call that runs on the document, by what it awaits: the keychain changes
or the signature of a response, the block or the signature of a change, or the
signature of a snapshot. -/
inductive Call (C : Type) where
  | loading (message : ServedMessage C)
  | loadingSnapshot (message : ServedMessage C) (lastChangeNodeCID : C)
  | signing (response : LoadResponse C)
  | sent (response : LoadResponse C)
  | storing (hash : C) (kind : NodeKind) (object : ℕ)
  | signingChange (hash : C) (changeNode : SharedTree C)
  | changed
  | signingSnapshot (lastChangeNodeCID : C)
  | snapshotted

/-- What happens to a document: a load request of either kind is answered, a
local change or a snapshot starts, a call goes on, or a remote message is
synced, which may adopt its snapshot, track tips and refresh the cached
message. -/
inductive ResponderEvent (C : Type) where
  | loadRequest
  | snapshotLoadRequest
  | makeChange (hash : C) (kind : NodeKind) (object : ℕ)
  | snapshot
  | resume (call : ℕ)
  | adoptSnapshot (lastChangeNodeCID : C)
  | trackTip (tip : RecentTip C)
  | refresh (receivedChangeId : Option C) (receivedChanges : SharedTree C)

/-- The part of a document that load responses are made of, with all calls. -/
structure Responder (C : Type) where
  lastSyncMessage : ServedMessage C
  latestSnapshot : Option C
  recentTips : List (RecentTip C)
  calls : List (Call C)

variable {C : Type} [DecidableEq C] [Bot C]

/-- `computeServedFrontier` of a message and the boundary of a snapshot. -/
def servedTips (message : ServedMessage C) (lastChangeNodeCID : Option C) : List C :=
  computeServedFrontier (message.map Prod.fst) (message.map Prod.snd)
    lastChangeNodeCID

/-- The tips are the frontier of what is served. -/
def LoadResponse.Consistent (r : LoadResponse C) : Prop :=
  ∀ c, c ∈ r.tips ↔ c ∈ servedTips r.message r.lastChangeNodeCID

omit [Bot C] in
/-- A call after objects lost their children; a response that was sent is
serialized. -/
def Call.cut (objects : List ℕ) : Call C → Call C
  | .loading message => .loading (message.map (cutEntry objects))
  | .loadingSnapshot message cid =>
      .loadingSnapshot (message.map (cutEntry objects)) cid
  | .signing r =>
      .signing { r with message := r.message.map (cutEntry objects) }
  | .signingChange hash changeNode =>
      .signingChange hash (cutNode objects changeNode)
  | call => call

namespace Responder

/-- The document before any calls. -/
def new (lastSyncMessage : ServedMessage C) (latestSnapshot : Option C)
    (recentTips : List (RecentTip C)) : Responder C :=
  ⟨lastSyncMessage, latestSnapshot, recentTips, []⟩

/-- `_refreshLastSyncMessageFromSync`. -/
def refresh (s : Responder C) (receivedChangeId : Option C)
    (receivedChanges : SharedTree C) : Responder C :=
  match receivedChangeId with
  | none => s
  | some received =>
      if received = ⊥ then s
      else
        match s.lastSyncMessage with
        | none => { s with lastSyncMessage := some (received, receivedChanges) }
        | some prior =>
            if prior.1 = ⊥ then
              { s with lastSyncMessage := some (received, receivedChanges) }
            else if prior.1 = received then s
            else if Merkle.treeContainsCid (some received)
                (some receivedChanges) (some prior.1) then
              { s with lastSyncMessage := some (received, receivedChanges) }
            else s

/-- `_pruneChanges`. -/
def pruneChanges (keepCount : ℕ) (s : Responder C) : Responder C :=
  match s.lastSyncMessage with
  | none => s
  | some tree =>
      let objects := cutObjects keepCount tree
      { s with
        lastSyncMessage := some (cutEntry objects tree)
        calls := s.calls.map (Call.cut objects) }

/-- A waiting call goes on. -/
def resume (config : CompactionConfig) (s : Responder C) (i : ℕ) :
    Call C → Responder C
  | .loading message =>
      { s with
        calls := s.calls.set i (.signing ⟨message, s.latestSnapshot,
          servedTips s.lastSyncMessage s.latestSnapshot⟩) }
  | .loadingSnapshot message cid =>
      { s with
        calls := s.calls.set i (.signing ⟨message, some cid,
          servedTips s.lastSyncMessage s.latestSnapshot⟩) }
  | .signing r => { s with calls := s.calls.set i (.sent r) }
  | .storing hash kind object =>
      { s with
        recentTips := trackTipInList s.recentTips (hash, kind) maxRecentTips
        calls := s.calls.set i (.signingChange hash
          (Merkle.makeChangeNode s.lastSyncMessage s.recentTips hash kind
            object)) }
  | .signingChange hash changeNode =>
      { s with
        lastSyncMessage := some (hash, changeNode)
        calls := s.calls.set i .changed }
  | .signingSnapshot cid =>
      let s := { s with
        latestSnapshot := some cid
        calls := s.calls.set i .snapshotted }
      if config.pruneAfterSnapshot then s.pruneChanges config.keepRecentNodes
      else s
  | _ => s

/-- One event. -/
def step (config : CompactionConfig) (s : Responder C) :
    ResponderEvent C → Responder C
  | .loadRequest => { s with calls := s.calls ++ [.loading s.lastSyncMessage] }
  | .snapshotLoadRequest =>
      match s.latestSnapshot with
      -- an empty response
      | none => s
      | some cid =>
          { s with
            calls := s.calls ++ [.loadingSnapshot s.lastSyncMessage cid] }
  | .makeChange hash kind object =>
      { s with calls := s.calls ++ [.storing hash kind object] }
  | .snapshot =>
      { s with
        calls := s.calls ++
          [.signingSnapshot ((s.lastSyncMessage.map Prod.fst).getD ⊥)] }
  | .resume i =>
      match s.calls[i]? with
      | some call => s.resume config i call
      | none => s
  | .adoptSnapshot cid => { s with latestSnapshot := some cid }
  | .trackTip tip =>
      { s with recentTips := trackTipInList s.recentTips tip maxRecentTips }
  | .refresh receivedChangeId receivedChanges =>
      s.refresh receivedChangeId receivedChanges

end Responder

/-! ## The frontier of a response -/

omit [Bot C] in
/-- A CID that the tree of a message references. -/
def Referenced (message : ServedMessage C) (c : C) : Prop :=
  ∃ e ∈ message, c ∈ collectReferencedAncestors (some e.1) e.2 []

omit [Bot C] in
/-- The root of a message, or a CID that its tree references. -/
def Inside (message : ServedMessage C) (c : C) : Prop :=
  c ∈ message.map Prod.fst ∨ Referenced message c

omit [Bot C] in
theorem referenced_some {e : Entry C (NodeData ℕ)} {c : C} :
    Referenced (some e) c ↔
      c ∈ collectReferencedAncestors (some e.1) e.2 [] := by
  simp [Referenced]

/-- The frontier is the root and the boundary, unless the tree references
them. -/
theorem mem_servedTips {message : ServedMessage C} {cid : Option C} {c : C} :
    c ∈ servedTips message cid ↔
      (c ∈ message.map Prod.fst ∨ c ∈ boundaryCids cid) ∧
        ¬Referenced message c := by
  cases message with
  | none =>
      rw [servedTips]
      unfold computeServedFrontier
      cases cid with
      | none => simp [boundaryCids, Referenced]
      | some b =>
          by_cases hempty : b = ⊥
          · simp [boundaryCids, Referenced, hempty, Finset.filter_singleton]
          · simp [boundaryCids, Referenced, hempty, Finset.filter_singleton,
              FieldOrder.mem_touch]
  | some e =>
      have hscanned : Referenced (some e) c ↔
          Merkle.ScanExposes e.1 e.2 c := by
        rw [referenced_some, Merkle.mem_collectReferencedAncestors]
        simp
      rw [servedTips, Option.map_some, Option.map_some,
        Merkle.mem_computeServedFrontier, hscanned]
      simp [eq_comm]

/-- A message that a handler took gives the tips that are computed now: it is
still the cached one, or there was none and the cached root is the boundary of
the response; and outside the tree the boundaries are the same. -/
structure Responder.StillServes (s : Responder C) (message : ServedMessage C)
    (lastChangeNodeCID : Option C) : Prop where
  message : message = s.lastSyncMessage ∨ message = none ∧
    ∃ e ∈ s.lastSyncMessage, e.1 ∈ boundaryCids lastChangeNodeCID ∧
      ¬Referenced s.lastSyncMessage e.1
  boundary : ∀ c, ¬Inside s.lastSyncMessage c →
    (c ∈ boundaryCids lastChangeNodeCID ↔ c ∈ boundaryCids s.latestSnapshot)

theorem boundaryCids_subsingleton {cid : Option C} {c c' : C}
    (h : c ∈ boundaryCids cid) (h' : c' ∈ boundaryCids cid) : c = c' := by
  simp only [boundaryCids, Finset.mem_filter, Option.mem_toFinset,
    Option.mem_def] at h h'
  exact Option.some.inj (h.1.symm.trans h'.1)

theorem Responder.StillServes.consistent {s : Responder C}
    {message : ServedMessage C} {cid : Option C}
    (h : s.StillServes message cid) :
    (⟨message, cid, servedTips s.lastSyncMessage s.latestSnapshot⟩ :
      LoadResponse C).Consistent := by
  intro c
  change c ∈ servedTips s.lastSyncMessage s.latestSnapshot ↔
    c ∈ servedTips message cid
  rw [mem_servedTips, mem_servedTips]
  rcases h.message with rfl | ⟨rfl, e, he, hboundary, hroot⟩
  · refine and_congr_left fun hreferenced => ?_
    by_cases hc : c ∈ s.lastSyncMessage.map Prod.fst
    · exact iff_of_true (Or.inl hc) (Or.inl hc)
    · have hinside : ¬Inside s.lastSyncMessage c := by
        rintro (hmem | hmem)
        · exact hc hmem
        · exact hreferenced hmem
      rw [h.boundary c hinside]
  · have hrootId : e.1 ∈ s.lastSyncMessage.map Prod.fst :=
      Option.mem_map.2 ⟨e, he, rfl⟩
    -- the boundary of the response is the cached root
    have hserved : c ∈ boundaryCids cid ↔ c = e.1 := by
      constructor
      · exact fun hc => boundaryCids_subsingleton hc hboundary
      · rintro rfl
        exact hboundary
    constructor
    · rintro ⟨hc | hc, hreferenced⟩
      · obtain rfl : e.1 = c :=
          Option.mem_unique hrootId hc
        exact ⟨Or.inr hboundary, by simp [Referenced]⟩
      · refine ⟨Or.inr ?_, by simp [Referenced]⟩
        by_cases hinside : Inside s.lastSyncMessage c
        · rw [hserved]
          rcases hinside with hmem | hmem
          · exact Option.mem_unique hmem hrootId
          · exact absurd hmem hreferenced
        · exact (h.boundary c hinside).2 hc
    · rintro ⟨hc | hc, -⟩
      · simp at hc
      · obtain rfl := hserved.1 hc
        exact ⟨Or.inl hrootId, hroot⟩

/-- What the handler took is to be told apart from what is cached by its root:
a CID names one tree, no tree references its own root, the cache does not become
empty, and neither root is the boundary on the other side. -/
structure Responder.Comparable (s : Responder C) (message : ServedMessage C)
    (lastChangeNodeCID : Option C) : Prop where
  root : ∀ e ∈ message, ¬Referenced message e.1
  cachedRoot : ∀ e ∈ s.lastSyncMessage, ¬Referenced s.lastSyncMessage e.1
  named : ∀ e ∈ message, ∀ e' ∈ s.lastSyncMessage, e.1 = e'.1 → e = e'
  cached : s.lastSyncMessage = none → message = none
  apart : ∀ e ∈ message, ∀ e' ∈ s.lastSyncMessage,
    e.1 ∈ boundaryCids s.latestSnapshot →
      e'.1 ∈ boundaryCids lastChangeNodeCID → e.1 = e'.1

/-- For such messages the tips are right only if the document still serves what
the handler took. -/
theorem Responder.Comparable.consistent_iff {s : Responder C}
    {message : ServedMessage C} {cid : Option C}
    (h : s.Comparable message cid) :
    (⟨message, cid, servedTips s.lastSyncMessage s.latestSnapshot⟩ :
      LoadResponse C).Consistent ↔ s.StillServes message cid := by
  refine ⟨fun hconsistent => ?_, Responder.StillServes.consistent⟩
  have htips : ∀ c, c ∈ servedTips s.lastSyncMessage s.latestSnapshot ↔
      c ∈ servedTips message cid := hconsistent
  simp only [mem_servedTips] at htips
  have hmessage : message = s.lastSyncMessage ∨ message = none ∧
      ∃ e ∈ s.lastSyncMessage, e.1 ∈ boundaryCids cid ∧
        ¬Referenced s.lastSyncMessage e.1 := by
    rcases hcached : s.lastSyncMessage with _ | e'
    · exact Or.inl (h.cached hcached)
    · have he' : e' ∈ s.lastSyncMessage := hcached
      have hroot' := h.cachedRoot e' he'
      have hserved := (htips e'.1).1
        ⟨Or.inl (Option.mem_map.2 ⟨e', he', rfl⟩), hroot'⟩
      rcases hmess : message with _ | e
      · refine Or.inr ⟨rfl, e', rfl, ?_, hcached ▸ hroot'⟩
        rw [hmess] at hserved
        exact hserved.1.resolve_left (by simp)
      · have he : e ∈ message := hmess
        have htaken := (htips e.1).2
          ⟨Or.inl (Option.mem_map.2 ⟨e, he, rfl⟩), h.root e he⟩
        have hsame : e.1 = e'.1 := by
          rcases hserved.1 with hmem | hboundary
          · obtain ⟨e₀, he₀, heq⟩ := Option.mem_map.1 hmem
            rw [← heq, Option.mem_unique he he₀]
          · rcases htaken.1 with hmem | hlatest
            · obtain ⟨e₀, he₀, heq⟩ := Option.mem_map.1 hmem
              rw [← heq, Option.mem_unique he' he₀]
            · exact h.apart e he e' he' hlatest hboundary
        rw [h.named e he e' he' hsame]
        exact Or.inl rfl
  refine ⟨hmessage, fun c hinside => ?_⟩
  rw [Inside, not_or] at hinside
  have hc := htips c
  rcases hmessage with rfl | ⟨rfl, -⟩
  · simp only [hinside, false_or, not_false_eq_true, and_true] at hc
    exact hc.symm
  · simp only [hinside, false_or, not_false_eq_true, and_true] at hc
    rw [hc]
    simp [Referenced]

/-- Whether the tree references the root and the boundary of a response stays
as it is when the objects lose their children. -/
def LoadResponse.HeadsKept (objects : List ℕ) (r : LoadResponse C) : Prop :=
  ∀ c, c ∈ r.message.map Prod.fst ∨ c ∈ boundaryCids r.lastChangeNodeCID →
    (Referenced (r.message.map (cutEntry objects)) c ↔
      Referenced r.message c)

theorem LoadResponse.Consistent.cut_iff {r : LoadResponse C}
    (h : r.Consistent) (objects : List ℕ) :
    ({ r with message := r.message.map (cutEntry objects) } :
        LoadResponse C).Consistent ↔ r.HeadsKept objects := by
  have hroots : (r.message.map (cutEntry objects)).map Prod.fst =
      r.message.map Prod.fst := by
    cases r.message <;> rfl
  refine forall_congr' fun c => ?_
  change (c ∈ r.tips ↔ c ∈ servedTips (r.message.map (cutEntry objects))
    r.lastChangeNodeCID) ↔ _
  rw [h c, mem_servedTips, mem_servedTips, hroots]
  tauto

/-! ## Runs -/

/-- The response of a call, if it has one, is consistent. -/
def Call.Consistent : Call C → Prop
  | .signing r => r.Consistent
  | .sent r => r.Consistent
  | _ => True

namespace Responder

/-- Where tips are computed, the document still serves what the handler took;
where a snapshot prunes, the responses that are being signed keep their heads.
-/
def Undisturbed (config : CompactionConfig) (s : Responder C) :
    ResponderEvent C → Prop
  | .resume i =>
      match s.calls[i]? with
      | some (.loading message) => s.StillServes message s.latestSnapshot
      | some (.loadingSnapshot message cid) => s.StillServes message (some cid)
      | some (.signingSnapshot _) =>
          config.pruneAfterSnapshot → ∀ tree ∈ s.lastSyncMessage,
            ∀ r, .signing r ∈ s.calls →
              r.HeadsKept (cutObjects config.keepRecentNodes tree)
      | _ => True
  | _ => True

/-- All responses so far are consistent. -/
def AllConsistent (s : Responder C) : Prop :=
  ∀ call ∈ s.calls, call.Consistent

theorem AllConsistent.set {s : Responder C} (h : s.AllConsistent) {i : ℕ}
    {call : Call C} (hcall : call.Consistent) :
    ∀ call' ∈ s.calls.set i call, call'.Consistent := by
  intro call' hmem
  rcases List.mem_or_eq_of_mem_set hmem with hold | rfl
  · exact h call' hold
  · exact hcall

theorem AllConsistent.append {s : Responder C} (h : s.AllConsistent)
    {call : Call C} (hcall : call.Consistent) :
    ∀ call' ∈ s.calls ++ [call], call'.Consistent := by
  intro call' hmem
  rcases List.mem_append.1 hmem with hold | hnew
  · exact h call' hold
  · obtain rfl := List.mem_singleton.1 hnew
    exact hcall

/-- Pruning keeps the responses consistent whose heads it keeps. -/
theorem AllConsistent.pruneChanges {s : Responder C} (h : s.AllConsistent)
    {keepCount : ℕ}
    (hkept : ∀ tree ∈ s.lastSyncMessage, ∀ r, .signing r ∈ s.calls →
      r.HeadsKept (cutObjects keepCount tree)) :
    (s.pruneChanges keepCount).AllConsistent := by
  rw [Responder.pruneChanges]
  split
  · exact h
  · rename_i tree htree
    intro call hmem
    obtain ⟨call', hmem', rfl⟩ := List.mem_map.1 hmem
    have hcall : call'.Consistent := h call' hmem'
    cases call' with
    | signing r =>
        apply (LoadResponse.Consistent.cut_iff hcall _).2
        exact hkept tree htree r hmem'
    | sent r => exact hcall
    | _ => trivial

theorem calls_refresh (s : Responder C) (receivedChangeId : Option C)
    (receivedChanges : SharedTree C) :
    (s.refresh receivedChangeId receivedChanges).calls = s.calls := by
  unfold refresh
  split
  · rfl
  · split
    · rfl
    · split
      · rfl
      · split_ifs <;> rfl

theorem resume_allConsistent {config : CompactionConfig} {s : Responder C}
    {i : ℕ} {call : Call C} (h : s.AllConsistent)
    (hcall : s.calls[i]? = some call)
    (hguard : s.Undisturbed config (.resume i)) :
    (s.resume config i call).AllConsistent := by
  rw [Undisturbed, hcall] at hguard
  have hmem : call ∈ s.calls := List.mem_of_getElem? hcall
  cases call with
  | loading message => exact h.set hguard.consistent
  | loadingSnapshot message cid => exact h.set hguard.consistent
  | signing r => exact h.set (h (.signing r) hmem)
  | sent r => exact h
  | storing hash kind object => exact h.set trivial
  | signingChange hash changeNode => exact h.set trivial
  | changed => exact h
  | snapshotted => exact h
  | signingSnapshot cid =>
      have hset : AllConsistent { s with
          latestSnapshot := some cid
          calls := s.calls.set i .snapshotted } := h.set trivial
      rw [resume]
      split
      · rename_i hprune
        apply hset.pruneChanges
        intro tree htree r hr
        apply hguard hprune tree htree r
        rcases List.mem_or_eq_of_mem_set hr with hold | heq
        · exact hold
        · cases heq
      · exact hset

theorem step_allConsistent {config : CompactionConfig} {s : Responder C}
    (e : ResponderEvent C) (h : s.AllConsistent)
    (hguard : s.Undisturbed config e) :
    (s.step config e).AllConsistent := by
  cases e with
  | loadRequest => exact h.append trivial
  | snapshotLoadRequest =>
      rw [step]
      split
      · exact h
      · exact h.append trivial
  | makeChange hash kind object => exact h.append trivial
  | snapshot => exact h.append trivial
  | resume i =>
      rw [step]
      split
      · rename_i call hcall
        exact resume_allConsistent h hcall hguard
      · exact h
  | adoptSnapshot cid => exact h
  | trackTip tip => exact h
  | refresh receivedChangeId receivedChanges =>
      intro call hmem
      apply h call
      rwa [step, calls_refresh] at hmem

/-- In a run in which the document still serves what a handler took when its
tips are computed, and pruning keeps the heads of the responses that are being
signed, the tips of every response that is sent are the frontier of what is
sent. -/
theorem sentResponse_consistent (config : CompactionConfig)
    (lastSyncMessage : ServedMessage C) (latestSnapshot : Option C)
    (recentTips : List (RecentTip C)) (events : List (ResponderEvent C))
    (hguard : Guarded (step config) (Undisturbed config)
      (new lastSyncMessage latestSnapshot recentTips) events) :
    ∀ r, .sent r ∈ (exec (step config)
        (new lastSyncMessage latestSnapshot recentTips) events).calls →
      ∀ c, c ∈ r.tips ↔ c ∈ computeServedFrontier (r.message.map Prod.fst)
        (r.message.map Prod.snd) r.lastChangeNodeCID := by
  have hnew : (new lastSyncMessage latestSnapshot recentTips).AllConsistent :=
    fun call hmem => by cases hmem
  have hall := exec_invariant (fun s e hs he => step_allConsistent e hs he)
    events _ hnew hguard
  intro r hr
  exact hall _ hr

/-! ### Runs over two changes -/

/-- Change `1`. -/
def oneChange : SharedTree ℕ := .node ⟨.document, some 11⟩ .absent

/-- Change `2` over change `1`. -/
def twoChanges : SharedTree ℕ :=
  .node ⟨.document, some 12⟩ (.present (.cons 1 oneChange .nil))

/-- Change `2` after pruning. -/
def prunedChange : SharedTree ℕ := .node ⟨.document, some 12⟩ .absent

/-- Keep one node. -/
def keepOne : CompactionConfig := ⟨true, 1⟩

/-- A snapshot prunes while the response to a load request is being signed. -/
def pruneWhileSigning : List (ResponderEvent ℕ) :=
  [.loadRequest, .resume 0, .snapshot, .resume 1, .resume 0]

/-- A local change that is being signed is written while a handler awaits the
keychain changes. -/
def changeWhileLoading : List (ResponderEvent ℕ) :=
  [.makeChange 2 .document 12, .resume 0, .loadRequest, .resume 0, .resume 1,
    .resume 1]

/-- A snapshot replaces the latest one and prunes while a handler awaits the
keychain changes. -/
def pruneWhileLoading : List (ResponderEvent ℕ) :=
  [.snapshotLoadRequest, .snapshot, .resume 1, .resume 0, .resume 0]

/-- Where there is no earlier snapshot, pruning does no harm: the response
carries the pruned tree, and its root is its only head. -/
theorem sentResponse_pruned :
    let s := exec (step keepOne) (new (some (2, twoChanges)) none [])
      pruneWhileSigning
    s.calls = [.sent ⟨some (2, prunedChange), none, [2]⟩, .snapshotted] ∧
      ∀ c, c ∈ [2] ↔
        c ∈ computeServedFrontier (some 2) (some prunedChange) none := by
  have hcalls : (exec (step keepOne) (new (some (2, twoChanges)) none [])
      pruneWhileSigning).calls =
        [.sent ⟨some (2, prunedChange), none, [2]⟩, .snapshotted] := by
    rfl
  refine ⟨hcalls, ?_⟩
  refine sentResponse_consistent keepOne (some (2, twoChanges)) none []
    pruneWhileSigning ?_ ⟨some (2, prunedChange), none, [2]⟩ ?_
  · refine ⟨trivial, ?_, trivial, ?_, trivial, trivial⟩
    · exact ⟨Or.inl rfl, fun _ _ => Iff.rfl⟩
    · intro _ tree htree r hr c hc
      obtain rfl := Option.some.inj htree
      -- one response is being signed
      obtain rfl : (⟨some (2, twoChanges), none, [2]⟩ : LoadResponse ℕ) =
          r := by
        rcases List.mem_cons.1 hr with heq | hr
        · cases heq
          rfl
        · cases List.mem_singleton.1 hr
      obtain rfl : 2 = c := by
        rcases hc with hroot | hboundary
        · exact Option.some.inj hroot
        · simp [boundaryCids] at hboundary
      rw [Option.map_some, referenced_some, referenced_some]
      decide
  · rw [hcalls]
    exact List.mem_cons_self

/-- The tips are those of a message or a snapshot that the response does not
carry, or of nodes that were pruned since. -/
theorem sentResponse_inconsistent :
    (∃ r, .sent r ∈ (exec (step keepOne) (new (some (1, oneChange)) none [])
        changeWhileLoading).calls ∧
      r.tips = [2] ∧ servedTips r.message r.lastChangeNodeCID = [1]) ∧
    (∃ r, .sent r ∈ (exec (step keepOne)
        (new (some (2, twoChanges)) (some 1) []) pruneWhileSigning).calls ∧
      r.tips = [2] ∧ servedTips r.message r.lastChangeNodeCID = [2, 1]) ∧
    ∃ r, .sent r ∈ (exec (step keepOne)
        (new (some (2, twoChanges)) (some 1) []) pruneWhileLoading).calls ∧
      r.tips = [2] ∧ servedTips r.message r.lastChangeNodeCID = [2, 1] := by
  refine ⟨?_, ?_, ?_⟩
  · exact ⟨⟨some (1, oneChange), none, [2]⟩,
      List.mem_cons_of_mem _ List.mem_cons_self, rfl, rfl⟩
  · exact ⟨⟨some (2, prunedChange), some 1, [2]⟩, List.mem_cons_self, rfl, rfl⟩
  · exact ⟨⟨some (2, prunedChange), some 1, [2]⟩, List.mem_cons_self, rfl, rfl⟩

end Responder

end Collabswarm.Load
