import Mathlib.Data.List.TakeWhile
import Collabswarm.Load.Loader

/-!
# Where changes land

What the steps of `_syncDocumentChanges` do to `_hashes`, and what they leave
as it is.  A block lands if it can be read and applied in the state in which it
arrives.
-/

namespace Collabswarm.Load.Loader

open Document (NodeKind RecentTip)
open Merkle (ChangeTree NodeData)

variable {C P D A Q U K H : Type}

/-- The fields that applying changes leaves as they are. -/
structure Kept (s s' : Loader C P D A Q) : Prop where
  referencedAncestors : s'.referencedAncestors = s.referencedAncestors
  keychain : s'.keychain = s.keychain
  latestSnapshot : s'.latestSnapshot = s.latestSnapshot
  lastSyncMessage : s'.lastSyncMessage = s.lastSyncMessage

theorem Kept.refl (s : Loader C P D A Q) : Kept s s :=
  ⟨rfl, rfl, rfl, rfl⟩

theorem Kept.trans {s s' s'' : Loader C P D A Q} (h : Kept s s')
    (h' : Kept s' s'') : Kept s s'' :=
  ⟨h'.referencedAncestors.trans h.referencedAncestors,
    h'.keychain.trans h.keychain,
    h'.latestSnapshot.trans h.latestSnapshot,
    h'.lastSyncMessage.trans h.lastSyncMessage⟩

variable [LinearOrder C]

/-! ## Tips -/

theorem trackTip_kept (s : Loader C P D A Q) (tip : RecentTip C) :
    Kept s (s.trackTip tip) :=
  ⟨rfl, rfl, rfl, rfl⟩

theorem foldl_trackTip_kept (tips : List (RecentTip C)) :
    ∀ s : Loader C P D A Q, Kept s (tips.foldl trackTip s) := by
  induction tips with
  | nil => exact Kept.refl
  | cons tip tips ih =>
      intro s
      exact (trackTip_kept s tip).trans (ih _)

theorem foldl_trackTip_hashes (tips : List (RecentTip C)) :
    ∀ s : Loader C P D A Q, (tips.foldl trackTip s).hashes = s.hashes := by
  induction tips with
  | nil => exact fun _ => rfl
  | cons tip tips ih =>
      intro s
      exact ih _

/-! ## Blocks that arrive -/

section Blocks

variable (p : Providers C P D A Q U K H) (store : Blockstore C)

/-- The payload can be applied as a change of this kind. -/
def applies (s : Loader C P D A Q) (kind : NodeKind) (changes : P) : Bool :=
  match kind with
  | .document => (p.remoteChange s.document changes).isSome
  | .reader => (p.mergeACL s.readers changes).isSome
  | .writer => (p.mergeACL s.writers changes).isSome

/-- The block can be read and applied. -/
def lands (s : Loader C P D A Q) (missing : RecentTip C) : Bool :=
  (getBlock p store s.keychain missing.1).any (s.applies p missing.2)

variable {p store}

theorem applyMissing_kept (s : Loader C P D A Q) (missing : RecentTip C)
    (changes : P) : Kept s (s.applyMissing p missing changes) := by
  obtain ⟨cid, kind⟩ := missing
  cases kind <;> unfold applyMissing <;> dsimp only <;> split
  all_goals exact ⟨rfl, rfl, rfl, rfl⟩

theorem mem_hashes_applyMissing (s : Loader C P D A Q) (missing : RecentTip C)
    (changes : P) (c : C) :
    c ∈ (s.applyMissing p missing changes).hashes ↔
      c ∈ s.hashes ∨ c = missing.1 ∧ s.applies p missing.2 changes = true := by
  obtain ⟨cid, kind⟩ := missing
  cases kind <;> unfold applyMissing applies <;> dsimp only <;> split
  all_goals rename_i heq
  all_goals simp [heq, trackTip, or_comm]

theorem applyMissing_of_not_applies {s : Loader C P D A Q}
    {missing : RecentTip C} {changes : P}
    (h : s.applies p missing.2 changes = false) :
    s.applyMissing p missing changes = s := by
  obtain ⟨cid, kind⟩ := missing
  cases kind <;> unfold applies at h <;>
    rw [Option.isSome_eq_false_iff, Option.isNone_iff_eq_none] at h <;>
    unfold applyMissing <;> dsimp only at h ⊢ <;> rw [h]

theorem landBlock_kept (s : Loader C P D A Q) (missing : RecentTip C) :
    Kept s (s.landBlock p store missing) := by
  unfold landBlock
  split
  · exact Kept.refl s
  · exact applyMissing_kept s missing _

/-- A block that lands adds its CID. -/
theorem mem_hashes_landBlock (s : Loader C P D A Q) (missing : RecentTip C)
    (c : C) : c ∈ (s.landBlock p store missing).hashes ↔
      c ∈ s.hashes ∨ c = missing.1 ∧ s.lands p store missing = true := by
  unfold landBlock lands
  split
  · rename_i heq
    simp [heq]
  · rename_i changes heq
    rw [mem_hashes_applyMissing, heq, Option.any_some]

/-- A block that does not land changes nothing. -/
theorem landBlock_of_not_lands {s : Loader C P D A Q}
    {missing : RecentTip C} (h : s.lands p store missing = false) :
    s.landBlock p store missing = s := by
  unfold landBlock
  unfold lands at h
  split
  · rfl
  · rename_i changes heq
    rw [heq, Option.any_some] at h
    exact applyMissing_of_not_applies h

variable (p store)

/-- A CID lands when its block arrives, behind the blocks before it. -/
inductive LandsAmong : Loader C P D A Q → List (RecentTip C) → C → Prop
  | first {s : Loader C P D A Q} {missing : RecentTip C}
      {rest : List (RecentTip C)} : s.lands p store missing = true →
      LandsAmong s (missing :: rest) missing.1
  | later {s : Loader C P D A Q} {missing : RecentTip C}
      {rest : List (RecentTip C)} {c : C} :
      LandsAmong (s.landBlock p store missing) rest c →
      LandsAmong s (missing :: rest) c

variable {p store}

theorem foldl_landBlock_kept (arrived : List (RecentTip C)) :
    ∀ s : Loader C P D A Q, Kept s (arrived.foldl (landBlock p store) s) := by
  induction arrived with
  | nil => exact Kept.refl
  | cons missing arrived ih =>
      intro s
      exact (landBlock_kept s missing).trans (ih _)

/-- The CIDs that are added are those that land. -/
theorem mem_hashes_foldl_landBlock (arrived : List (RecentTip C)) (c : C) :
    ∀ s : Loader C P D A Q,
      c ∈ (arrived.foldl (landBlock p store) s).hashes ↔
        c ∈ s.hashes ∨ LandsAmong p store s arrived c := by
  induction arrived with
  | nil =>
      intro s
      rw [or_iff_left nofun]
      rfl
  | cons missing arrived ih =>
      intro s
      rw [List.foldl_cons, ih, mem_hashes_landBlock, or_assoc]
      apply or_congr_right
      constructor
      · rintro (⟨rfl, hlands⟩ | hlater)
        · exact .first hlands
        · exact .later hlater
      · intro h
        cases h with
        | first hlands => exact Or.inl ⟨rfl, hlands⟩
        | later hlater => exact Or.inr hlater

theorem LandsAmong.mem {s : Loader C P D A Q} {arrived : List (RecentTip C)}
    {c : C} (h : LandsAmong p store s arrived c) :
    c ∈ arrived.map Prod.fst := by
  induction h with
  | first _ => exact List.mem_cons_self
  | later _ ih => exact List.mem_cons_of_mem _ ih

/-- Something lands if and only if something would land first. -/
theorem exists_landsAmong_iff {arrived : List (RecentTip C)}
    {s : Loader C P D A Q} :
    (∃ c, LandsAmong p store s arrived c) ↔
      ∃ missing ∈ arrived, s.lands p store missing = true := by
  induction arrived with
  | nil =>
      apply iff_of_false
      · rintro ⟨c, ⟨⟩⟩
      · simp
  | cons missing arrived ih =>
      rw [List.exists_mem_cons_iff]
      by_cases hlands : s.lands p store missing = true
      · exact iff_of_true ⟨_, .first hlands⟩ (Or.inl hlands)
      · rw [or_iff_right hlands, ← ih]
        have hsame := landBlock_of_not_lands (Bool.not_eq_true _ ▸ hlands)
        constructor
        · rintro ⟨c, h⟩
          cases h with
          | first h => exact absurd h hlands
          | later hlater => exact ⟨c, hsame ▸ hlater⟩
        · rintro ⟨c, h⟩
          exact ⟨c, .later (hsame.symm ▸ h)⟩

theorem foldl_landBlock_of_not_lands {arrived : List (RecentTip C)}
    {s : Loader C P D A Q}
    (h : ∀ missing ∈ arrived, s.lands p store missing = false) :
    arrived.foldl (landBlock p store) s = s := by
  induction arrived with
  | nil => rfl
  | cons missing arrived ih =>
      rw [List.foldl_cons, landBlock_of_not_lands (h _ List.mem_cons_self)]
      exact ih fun m hm => h m (List.mem_cons_of_mem _ hm)

/-- Everything lands if every block can be read and applied at any time. -/
theorem landsAmong_of_succeed {arrived : List (RecentTip C)}
    {s : Loader C P D A Q} {c : C}
    (h : ∀ s' : Loader C P D A Q, s'.keychain = s.keychain →
      ∀ missing ∈ arrived, s'.lands p store missing = true)
    (hc : c ∈ arrived.map Prod.fst) : LandsAmong p store s arrived c := by
  induction arrived generalizing s with
  | nil => cases hc
  | cons missing arrived ih =>
      rcases List.mem_cons.1 hc with rfl | hc
      · exact .first (h s rfl missing List.mem_cons_self)
      · apply LandsAmong.later
        apply ih _ hc
        intro s' hs' m hm
        have hkeychain : (s.landBlock p store missing).keychain = s.keychain :=
          (landBlock_kept s missing).keychain
        exact h s' (hs'.trans hkeychain) m (List.mem_cons_of_mem _ hm)

variable (p store)

/-- All fetches succeed. -/
theorem fetchMissing_of_succeed (s : Loader C P D A Q)
    {missing : List (RecentTip C)} (hparse : ∀ m ∈ missing, p.parse m.1 = true)
    (h : ∀ s' : Loader C P D A Q, s'.keychain = s.keychain →
      ∀ m ∈ missing, s'.lands p store m = true) :
    ∃ s', s.fetchMissing p store missing = .ok s' ∧ Kept s s' ∧
      ∀ c, c ∈ s'.hashes ↔ c ∈ s.hashes ∨ c ∈ missing.map Prod.fst := by
  have hall : missing.all (fun e => p.parse e.1) = true :=
    List.all_eq_true.2 hparse
  have hstarted : missing.takeWhile (fun e => p.parse e.1) = missing :=
    List.takeWhile_eq_self_iff.2 hparse
  have hperm := store.arrival_perm missing
  refine ⟨(store.arrival missing).foldl (landBlock p store) s, ?_,
    foldl_landBlock_kept (store.arrival missing) s, ?_⟩
  · unfold fetchMissing
    rw [hstarted, if_pos hall]
  · intro c
    rw [mem_hashes_foldl_landBlock]
    apply or_congr_right
    constructor
    · intro hlands
      exact (hperm.map Prod.fst).mem_iff.1 hlands.mem
    · intro hc
      apply landsAmong_of_succeed
      · exact fun s' hs' m hm => h s' hs' m (hperm.mem_iff.1 hm)
      · exact (hperm.map Prod.fst).mem_iff.2 hc

end Blocks

/-! ## Entries with payload -/

section Sent

variable {p : Providers C P D A Q U K H}

/-- What the CRDT and the ACLs are given, they apply. -/
structure AppliesAll (p : Providers C P D A Q U K H) : Prop where
  remoteChange : ∀ document changes, (p.remoteChange document changes).isSome
  mergeACL : ∀ acl changes, (p.mergeACL acl changes).isSome

omit [LinearOrder C] in
theorem AppliesAll.applies (h : AppliesAll p) (s : Loader C P D A Q)
    (kind : NodeKind) (changes : P) : s.applies p kind changes = true := by
  cases kind with
  | document => exact h.remoteChange _ _
  | reader => exact h.mergeACL _ _
  | writer => exact h.mergeACL _ _

/-- The tip of an entry. -/
def entryTip (entry : C × NodeData P) : RecentTip C :=
  (entry.1, entry.2.kind)

omit [LinearOrder C] in
/-- An entry is applied, or it is missing. -/
theorem applySent_of_applies (happlies : AppliesAll p)
    (s : Loader C P D A Q) (sent : SentChanges C D)
    (entry : C × NodeData P) :
    ∃ s' sent', applySent p (s, sent) entry = .ok (s', sent') ∧ Kept s s' ∧
      s'.hashes = s.hashes ∧
      sent'.newDocumentTips = sent.newDocumentTips ++
        (if entry.2.change.isSome then [entryTip entry] else []) ∧
      sent'.missingDocumentHashes = sent.missingDocumentHashes ++
        (if entry.2.change.isSome then [] else [entryTip entry]) := by
  obtain ⟨cid, kind, change⟩ := entry
  cases change with
  | none =>
      exact ⟨_, _, rfl, Kept.refl s, rfl, by simp, by simp [entryTip]⟩
  | some change =>
      cases kind with
      | document =>
          obtain ⟨document, hdocument⟩ := Option.isSome_iff_exists.1
            (happlies.remoteChange sent.newDocument change)
          have happly : applySent p (s, sent) (cid, ⟨.document, some change⟩) =
              .ok ({ s with
                documentChangeCount := s.documentChangeCount + 1
                changesSinceSnapshot := s.changesSinceSnapshot + 1 },
                { sent with
                  newDocument := document
                  newDocumentTips :=
                    sent.newDocumentTips ++ [(cid, .document)] }) := by
            unfold applySent
            dsimp only
            rw [hdocument]
          exact ⟨_, _, happly, ⟨rfl, rfl, rfl, rfl⟩, rfl, rfl, by simp⟩
      | reader =>
          obtain ⟨readers, hreaders⟩ := Option.isSome_iff_exists.1
            (happlies.mergeACL s.readers change)
          have happly : applySent p (s, sent) (cid, ⟨.reader, some change⟩) =
              .ok ({ s with readers := readers }, { sent with
                newDocumentTips :=
                  sent.newDocumentTips ++ [(cid, .reader)] }) := by
            unfold applySent mergeReaders
            dsimp only
            rw [hreaders]
            rfl
          exact ⟨_, _, happly, ⟨rfl, rfl, rfl, rfl⟩, rfl, rfl, by simp⟩
      | writer =>
          obtain ⟨writers, hwriters⟩ := Option.isSome_iff_exists.1
            (happlies.mergeACL s.writers change)
          have happly : applySent p (s, sent) (cid, ⟨.writer, some change⟩) =
              .ok ({ s with writers := writers }, { sent with
                newDocumentTips :=
                  sent.newDocumentTips ++ [(cid, .writer)] }) := by
            unfold applySent mergeWriters
            dsimp only
            rw [hwriters]
            rfl
          exact ⟨_, _, happly, ⟨rfl, rfl, rfl, rfl⟩, rfl, rfl, by simp⟩

omit [LinearOrder C] in
/-- Every entry is applied or missing. -/
theorem foldlM_applySent_of_applies (happlies : AppliesAll p)
    (entries : List (C × NodeData P)) :
    ∀ (s : Loader C P D A Q) (sent : SentChanges C D),
      ∃ s' sent', entries.foldlM (applySent p) (s, sent) = .ok (s', sent') ∧
        Kept s s' ∧ s'.hashes = s.hashes ∧
        ∀ tip, (tip ∈ sent'.newDocumentTips ∨
            tip ∈ sent'.missingDocumentHashes) ↔
          (tip ∈ sent.newDocumentTips ∨ tip ∈ sent.missingDocumentHashes) ∨
            tip ∈ entries.map entryTip := by
  induction entries with
  | nil => exact fun s sent => ⟨s, sent, rfl, Kept.refl s, rfl, by simp⟩
  | cons entry entries ih =>
      intro s sent
      obtain ⟨s', sent', happly, hkept, hhashes, htips, hmissing⟩ :=
        applySent_of_applies happlies s sent entry
      obtain ⟨s'', sent'', hrest, hkept', hhashes', hmem⟩ := ih s' sent'
      refine ⟨s'', sent'', ?_, hkept.trans hkept', hhashes'.trans hhashes, ?_⟩
      · rw [List.foldlM_cons, happly]
        exact hrest
      · intro tip
        rw [hmem, htips, hmissing, List.map_cons, List.mem_cons]
        cases entry.2.change <;> simp <;> tauto

theorem finishSent_kept (s : Loader C P D A Q) (sent : SentChanges C D) :
    Kept s (s.finishSent sent) := by
  unfold finishSent
  split
  · exact Kept.refl s
  · have hwritten : Kept s { s with
        document := sent.newDocument
        hashes := s.hashes ∪
          (sent.newDocumentTips.map Prod.fst).toFinset } :=
      ⟨rfl, rfl, rfl, rfl⟩
    exact hwritten.trans (foldl_trackTip_kept _ _)

theorem hashes_finishSent (s : Loader C P D A Q) (sent : SentChanges C D) :
    (s.finishSent sent).hashes =
      s.hashes ∪ (sent.newDocumentTips.map Prod.fst).toFinset := by
  unfold finishSent
  split
  · rename_i hempty
    rw [List.isEmpty_iff.1 hempty]
    simp
  · exact foldl_trackTip_hashes _ _

end Sent

/-! ## The cached message -/

variable [Bot C]

/-- The document is as before, up to the cached message. -/
theorem refreshLastSyncMessageFromSync_eq (p : Providers C P D A Q U K H)
    (s : Loader C P D A Q) (changeId : Option C)
    (changes : ChangeTree C (NodeData P)) :
    ∃ message, s.refreshLastSyncMessageFromSync p changeId changes =
      { s with lastSyncMessage := message } := by
  unfold refreshLastSyncMessageFromSync
  split
  · exact ⟨_, rfl⟩
  · split
    · exact ⟨_, rfl⟩
    · split
      · exact ⟨_, rfl⟩
      · split
        · exact ⟨_, rfl⟩
        · split
          · exact ⟨_, rfl⟩
          · split
            · exact ⟨_, rfl⟩
            · exact ⟨_, rfl⟩

end Collabswarm.Load.Loader
