import Collabswarm.Document.CollabswarmDocument
import Collabswarm.Document.SyncOrder
import Collabswarm.Keychain.Lookup

/-!
# Who seeds the ratchet tree

`addReader` takes an instance for the founder if its `_hashes` is empty.  A
writer always has hashes: `open` makes the founding change of a document it
creates, and only a change tree makes a loaded user a writer.  So the gate
stops every writer without a tree, the creator of the document too.
-/

namespace Collabswarm.Document

/-! ## Hashes after a sync message -/

namespace SyncState

variable {C : Type} [LinearOrder C]

/-- A state with a last sync message has hashes. -/
def Rooted (s : SyncState C) : Prop :=
  s.lastChangeId.isSome → s.hashes.Nonempty

theorem adoptSnapshot_hashes (s : SyncState C)
    (snapshot : Option (Snapshot C)) :
    s.hashes ⊆ (s.adoptSnapshot snapshot).hashes ∧
      (s.adoptSnapshot snapshot).lastChangeId = s.lastChangeId := by
  unfold adoptSnapshot
  split
  · exact ⟨Finset.Subset.refl _, rfl⟩
  · split
    · refine ⟨?_, rfl⟩
      dsimp only
      split
      · exact Finset.Subset.refl _
      · exact Finset.subset_insert _ _
    · exact ⟨Finset.Subset.refl _, rfl⟩

/-- A message never removes hashes. -/
theorem hashes_subset_sync (s : SyncState C) (m : SyncMessage C) :
    s.hashes ⊆ (s.sync m).1.hashes := by
  refine (s.adoptSnapshot_hashes m.snapshot).1.trans ?_
  rw [sync]
  split
  · exact Finset.Subset.refl _
  · rw [syncDocumentChanges]
    split
    · exact Finset.Subset.refl _
    · intro c hc
      rw [refresh_hashes, mem_hashes_foldl, mem_hashes_foldl]
      exact Or.inl (Or.inl hc)

/-- A message with a change tree leaves hashes. -/
theorem Rooted.hashes_sync {s : SyncState C} (h : s.Rooted)
    {m : SyncMessage C} (hm : m.WellFormed) (htree : m.changes.isSome) :
    (s.sync m).1.hashes.Nonempty := by
  obtain ⟨root, hroot⟩ := Option.isSome_iff_exists.1 htree
  obtain ⟨rootId, hrootId⟩ := Option.isSome_iff_exists.1 (hm.rooted htree)
  obtain ⟨hsub, hlast⟩ := s.adoptSnapshot_hashes m.snapshot
  set s' := s.adoptSnapshot m.snapshot
  set known : C → Bool :=
    fun cid => some cid = s'.lastChangeId || cid ∈ s'.hashes with hknown
  obtain ⟨w, hw, -, hvisited⟩ := walkNode_spec rootId ⟨.empty, []⟩ root
    fun c n (hreached : Reached known rootId root c n) =>
      hm.inline rootId hrootId root hroot c n hreached.occurs
  have hmerge : mergeRemoteSyncTree (some rootId) root s'.lastChangeId
      s'.hashes = some w.byCid.entries := by
    rw [mergeRemoteSyncTree, hw]
    rfl
  rw [sync, hroot, hrootId]
  change (s'.syncDocumentChanges (some rootId) root).1.hashes.Nonempty
  simp only [syncDocumentChanges, hmerge]
  rcases hvisited with hvisited | ⟨hsome, -⟩
  · have hne : s'.hashes.Nonempty := by
      simp only [hknown, Bool.or_eq_true, decide_eq_true_eq] at hvisited
      rcases hvisited with heq | hmem
      · refine (h ?_).mono hsub
        rw [← hlast, ← heq]
        rfl
      · exact ⟨rootId, hmem⟩
    obtain ⟨c, hc⟩ := hne
    refine ⟨c, ?_⟩
    rw [refresh_hashes, mem_hashes_foldl, mem_hashes_foldl]
    exact Or.inl (Or.inl hc)
  · obtain ⟨v, hv⟩ := Option.isSome_iff_exists.1 hsome
    have hentry := w.byCid.mem_entries_iff.2 hv
    refine ⟨rootId, ?_⟩
    rw [refresh_hashes, mem_hashes_foldl, mem_hashes_foldl]
    cases hinline : v.2 with
    | true =>
        exact Or.inl (Or.inr ⟨(rootId, v), by simp [hentry, hinline], rfl⟩)
    | false => exact Or.inr ⟨(rootId, v), by simp [hentry, hinline], rfl⟩

theorem Rooted.sync {s : SyncState C} (h : s.Rooted) {m : SyncMessage C}
    (hm : m.WellFormed) : (s.sync m).1.Rooted := by
  intro hsome
  cases htree : m.changes with
  | none =>
      rw [SyncState.sync, htree] at hsome ⊢
      obtain ⟨hsub, hlast⟩ := s.adoptSnapshot_hashes m.snapshot
      exact (h (hlast ▸ hsome)).mono hsub
  | some root => exact h.hashes_sync hm (by simp [htree])

end SyncState

/-! ## Runs of one instance -/

/-- What happens to an instance before its first `addReader`. -/
inductive Event (U C E K : Type) where
  | openDocument (responses : List (CollabswarmDocument.Received U C E K))
      (loadedFromPeer allowed : Bool) (opId : ℕ) (keyId : E) (key : K)
      (cid : C)
  | setKemKeyPair (keyPair : Option BeeKEM.PrivateKey)
  | change (cid : C)
  | addWriter (writer : U) (cid : C)
  | removeWriter (writer : U) (cid : C) (opId : ℕ) (keyId : E) (key : K)
  | sync (received : CollabswarmDocument.Received U C E K)
  | welcome (message : WelcomeMessage U E K)

/-- A document instance, with whether `open` has created the document or found
an existing one, and whether a Welcome, or one that carries a tree, was
applied. -/
structure Instance (U C E K : Type) where
  document : CollabswarmDocument U C E K
  created : Bool
  found : Bool
  welcomed : Bool
  treeWelcomed : Bool

namespace Instance

open BeeKEM CollabswarmDocument

variable {U C E K : Type} [DecidableEq U] [LinearOrder C] [DecidableEq E]
  [DecidableEq K]

/-- A new instance. -/
def start (user : U) : Instance U C E K :=
  ⟨.new user, false, false, false, false⟩

/-- One event. -/
def step (p : Providers E K) (i : Instance U C E K) :
    Event U C E K → Instance U C E K
  | .openDocument responses loadedFromPeer allowed opId keyId key cid =>
      match (responses.foldl CollabswarmDocument.sync i.document).openDocument
          p loadedFromPeer allowed opId keyId key cid with
      | (document, .error _) => { i with document }
      | (document, .ok isExisting) =>
          { i with
            document
            created := i.created || !isExisting
            found := i.found || isExisting }
  | .setKemKeyPair keyPair =>
      { i with document := i.document.setKemKeyPair keyPair }
  | .change cid => { i with document := (i.document.change cid).1 }
  | .addWriter writer cid =>
      { i with document := (i.document.addWriter writer cid).1 }
  | .removeWriter writer cid opId keyId key =>
      { i with document :=
          (i.document.removeWriter p writer cid opId keyId key).1 }
  | .sync received => { i with document := i.document.sync received }
  | .welcome message =>
      { i with
        document := (i.document.applyBeeKEMWelcome message).1
        welcomed := i.welcomed || (i.document.applyBeeKEMWelcome message).2
        treeWelcomed := i.treeWelcomed ||
          ((i.document.applyBeeKEMWelcome message).2 &&
            message.beekemWelcome.isSome) }

/-- The sync messages of an event are as writers emit them. -/
def Emitted : Event U C E K → Prop
  | .openDocument responses _ _ _ _ _ _ =>
      ∀ r ∈ responses, r.message.WellFormed
  | .sync received => received.message.WellFormed
  | _ => True

/-- `addReader` passes both gates and the instance has a tree afterwards. -/
def SeedsTree (out : Outcome U C E K (Option (WelcomeMessage U E K))) :
    Prop :=
  out.result ≠ .error .addReaderNoTree ∧
    (∀ size, out.result ≠ .error (.registerMergedChanges size)) ∧
    out.document.beekem.isSome

/-- The founder, and only the founder, seeds the tree with a first
`addReader`. -/
def FounderSeeds (i : Instance U C E K)
    (out : Outcome U C E K (Option (WelcomeMessage U E K))) : Prop :=
  (i.created = true ∧ i.welcomed = false → SeedsTree out) ∧
    (i.found = true ∧ i.treeWelcomed = false →
      out.document = i.document ∧ ∃ e, out.result = .error e)

end Instance

/-! ## Writers have hashes -/

namespace CollabswarmDocument

variable {U C E K : Type} [DecidableEq U] [LinearOrder C] [DecidableEq E]
  [DecidableEq K]

/-- A document with a last sync message or with writers has hashes. -/
structure Rooted (d : CollabswarmDocument U C E K) : Prop where
  state : d.state.Rooted
  writers : d.writers.Nonempty → d.state.hashes.Nonempty

/-- What the methods do to hashes, tree and recorded leaves: hashes are only
added. -/
structure Grows (d d' : CollabswarmDocument U C E K) : Prop where
  hashes : d.state.hashes ⊆ d'.state.hashes
  beekem : d'.beekem = d.beekem
  leaves : d'.readerLeafIndices = d.readerLeafIndices

section Frame

omit [DecidableEq U] [LinearOrder C] [DecidableEq E] [DecidableEq K]

theorem Grows.refl (d : CollabswarmDocument U C E K) : d.Grows d :=
  ⟨Finset.Subset.refl _, rfl, rfl⟩

theorem Grows.trans {d d' d'' : CollabswarmDocument U C E K}
    (h : d.Grows d') (h' : d'.Grows d'') : d.Grows d'' :=
  ⟨h.hashes.trans h'.hashes, h'.beekem.trans h.beekem,
    h'.leaves.trans h.leaves⟩

/-- Other writers for a document of a writer. -/
theorem Rooted.withWriters {d : CollabswarmDocument U C E K} (h : d.Rooted)
    (huser : d.user ∈ d.writers) (writers : Finset U) :
    ({ d with writers } : CollabswarmDocument U C E K).Rooted :=
  ⟨h.state, fun _ => h.writers ⟨d.user, huser⟩⟩

end Frame

section Methods

omit [DecidableEq K]

omit [DecidableEq U] in
theorem makeChange_grows (d : CollabswarmDocument U C E K) (kind : NodeKind)
    (cid : C) :
    d.Grows (d.makeChange kind cid).1 ∧
      (d.Rooted → (d.makeChange kind cid).1.Rooted) := by
  obtain ⟨cache, ⟨-, e, heq⟩ | heq⟩ := d.makeChange_cases kind cid
  · rw [heq]
    exact ⟨⟨Finset.Subset.refl _, rfl, rfl⟩, fun h => ⟨h.state, h.writers⟩⟩
  · rw [heq]
    have hne : (insert cid d.state.hashes).Nonempty :=
      Finset.insert_nonempty _ _
    exact ⟨⟨Finset.subset_insert _ _, rfl, rfl⟩,
      fun _ => ⟨fun _ => hne, fun _ => hne⟩⟩

theorem change_grows (d : CollabswarmDocument U C E K) (cid : C) :
    d.Grows (d.change cid).1 ∧ (d.Rooted → (d.change cid).1.Rooted) := by
  rw [change]
  split
  · exact ⟨Grows.refl d, id⟩
  · exact d.makeChange_grows _ _

theorem addWriter_grows (d : CollabswarmDocument U C E K) (writer : U)
    (cid : C) :
    d.Grows (d.addWriter writer cid).1 ∧
      (d.Rooted → (d.addWriter writer cid).1.Rooted) := by
  rw [addWriter]
  split
  · exact ⟨Grows.refl d, id⟩
  · rename_i huser
    split
    · exact ⟨Grows.refl d, id⟩
    · obtain ⟨hgrows, hrooted⟩ := ({ d with
        writers := insert writer d.writers } :
          CollabswarmDocument U C E K).makeChange_grows .writer cid
      exact ⟨⟨hgrows.hashes, hgrows.beekem, hgrows.leaves⟩,
        fun h => hrooted (h.withWriters (not_not.1 huser) _)⟩

theorem removeWriter_grows (p : Providers E K)
    (d : CollabswarmDocument U C E K) (writer : U) (cid : C) (opId : ℕ)
    (keyId : E) (key : K) :
    d.Grows (d.removeWriter p writer cid opId keyId key).1 ∧
      (d.Rooted →
        (d.removeWriter p writer cid opId keyId key).1.Rooted) := by
  rw [removeWriter]
  split
  · exact ⟨Grows.refl d, id⟩
  · rename_i huser
    split
    · exact ⟨Grows.refl d, id⟩
    · obtain ⟨hgrows, hrooted⟩ := ({ d with
        writers := d.writers.erase writer } :
          CollabswarmDocument U C E K).makeChange_grows .writer cid
      split
      · rename_i heq
        rw [heq] at hgrows hrooted
        exact ⟨⟨hgrows.hashes, hgrows.beekem, hgrows.leaves⟩,
          fun h => hrooted (h.withWriters (not_not.1 huser) _)⟩
      · rename_i heq
        rw [heq] at hgrows hrooted
        refine ⟨⟨hgrows.hashes, hgrows.beekem, hgrows.leaves⟩, ?_⟩
        intro h
        have hafter := hrooted (h.withWriters (not_not.1 huser) _)
        exact ⟨hafter.state, hafter.writers⟩

end Methods

section Messages

omit [DecidableEq U]

theorem sync_grows (d : CollabswarmDocument U C E K)
    (r : Received U C E K) : d.Grows (d.sync r) :=
  ⟨d.state.hashes_subset_sync r.message, rfl, rfl⟩

theorem Rooted.sync {d : CollabswarmDocument U C E K} (h : d.Rooted)
    {r : Received U C E K} (hr : r.message.WellFormed) : (d.sync r).Rooted where
  state := h.state.sync hr
  writers := by
    intro hne
    by_cases htree : r.message.changes.isSome
    · exact h.state.hashes_sync hr htree
    · simp only [CollabswarmDocument.sync, if_neg htree] at hne
      exact (h.writers hne).mono (d.state.hashes_subset_sync r.message)

theorem load_grows (responses : List (Received U C E K))
    (d : CollabswarmDocument U C E K) :
    d.Grows (responses.foldl CollabswarmDocument.sync d) ∧
      ((∀ r ∈ responses, r.message.WellFormed) → d.Rooted →
        (responses.foldl CollabswarmDocument.sync d).Rooted) := by
  induction responses generalizing d with
  | nil => exact ⟨Grows.refl d, fun _ h => h⟩
  | cons r responses ih =>
      obtain ⟨hgrows, hrooted⟩ := ih (d.sync r)
      refine ⟨(d.sync_grows r).trans hgrows, ?_⟩
      intro hr h
      exact hrooted (fun r' hr' => hr r' (by simp [hr']))
        (h.sync (hr r (by simp)))

end Messages

omit [DecidableEq K] in
/-- `open` adds the founding change of a document that it creates. -/
theorem openDocument_grows (p : Providers E K)
    (d : CollabswarmDocument U C E K) (loadedFromPeer allowed : Bool)
    (opId : ℕ) (keyId : E) (key : K) (cid : C) :
    d.Grows (d.openDocument p loadedFromPeer allowed opId keyId key cid).1 ∧
      (d.Rooted → (d.openDocument p loadedFromPeer allowed opId keyId key
        cid).1.Rooted) ∧
      ((d.openDocument p loadedFromPeer allowed opId keyId key cid).2 =
          .ok false →
        (d.openDocument p loadedFromPeer allowed opId keyId key
          cid).1.state.hashes.Nonempty) := by
  rw [openDocument]
  split
  · exact ⟨Grows.refl d, id, fun h => by cases h⟩
  · split
    · exact ⟨Grows.refl d, id, fun h => by cases h⟩
    · set founding : CollabswarmDocument U C E K := { d with
        writers := insert d.user d.writers
        keychain := (d.keychain.add p.keychain opId keyId key).1 }
      obtain ⟨cache, ⟨hempty, e, -⟩ | heq⟩ :=
        founding.makeChange_cases .writer cid
      · have hmem : (keyId, key) ∈ founding.keychain.doc.contents :=
          Keychain.mem_contents_pushEntry.2 (Or.inr rfl)
        rw [hempty] at hmem
        cases hmem
      · rw [heq]
        have hne : (insert cid d.state.hashes).Nonempty :=
          Finset.insert_nonempty _ _
        exact ⟨⟨Finset.subset_insert _ _, rfl, rfl⟩,
          fun _ => ⟨fun _ => hne, fun _ => hne⟩, fun _ => hne⟩

omit [DecidableEq U] [LinearOrder C] in
/-- A Welcome changes neither hashes nor writers, and gives a tree only if it
carries one. -/
theorem applyBeeKEMWelcome_frame (d : CollabswarmDocument U C E K)
    (message : WelcomeMessage U E K) :
    (d.applyBeeKEMWelcome message).1.state = d.state ∧
      (d.applyBeeKEMWelcome message).1.writers = d.writers ∧
      (d.applyBeeKEMWelcome message).1.readerLeafIndices =
        d.readerLeafIndices ∧
      ((d.applyBeeKEMWelcome message).1.beekem = d.beekem ∨
        ((d.applyBeeKEMWelcome message).2 = true ∧
          message.beekemWelcome.isSome)) := by
  rw [applyBeeKEMWelcome]
  split
  · exact ⟨rfl, rfl, rfl, Or.inl rfl⟩
  · rename_i sk _
    split
    · exact ⟨rfl, rfl, rfl, Or.inl rfl⟩
    · dsimp only
      obtain ⟨cache, invitationEpoch, heq⟩ := recordInvitationEpoch_eq
        (({ d with keychain := d.keychain.merge message.keychainChanges } :
          CollabswarmDocument U C E K).bootstrap sk message.beekemWelcome)
        message.welcomeEpochId
      rw [heq]
      cases message.beekemWelcome with
      | none => exact ⟨rfl, rfl, rfl, Or.inl rfl⟩
      | some welcome =>
          rw [bootstrap]
          split <;> exact ⟨rfl, rfl, rfl, Or.inr ⟨rfl, rfl⟩⟩

omit [DecidableEq K] in
/-- Whoever has hashes but no tree cannot add a reader. -/
theorem addReader_noTree (p : Providers E K)
    {d : CollabswarmDocument U C E K} (reader : U) {key : RawKey} (cid : C)
    (opIds : ℕ → ℕ) (fresh : ℕ) (huser : d.user ∈ d.writers)
    (hkem : d.kemKeyPair.isSome)
    (hlength : key.byteLength = eciesP256PublicKeyLength)
    (htree : d.beekem = none) (hhashes : d.state.hashes.Nonempty) :
    d.addReader p reader (some key) cid opIds fresh =
      ⟨d, fresh, .error .addReaderNoTree⟩ := by
  obtain ⟨sk, hsk⟩ := Option.isSome_iff_exists.1 hkem
  have hcard : 0 < d.state.hashes.card := Finset.card_pos.2 hhashes
  simp [addReader, huser, hsk, wrongLength, hlength, htree, hcard]

omit [DecidableEq U] [LinearOrder C] [DecidableEq K] in
theorem sendBeeKEMWelcome_beekem (p : Providers E K)
    (d : CollabswarmDocument U C E K) (reader : U) (key : RawKey)
    (beekemWelcome : Option BeeKEM.Welcome) (opIds : ℕ → ℕ) :
    (d.sendBeeKEMWelcome p reader key beekemWelcome opIds).1.beekem =
      d.beekem := by
  rw [sendBeeKEMWelcome]
  split
  · rfl
  · dsimp only
    split <;> rfl

omit [LinearOrder C] [DecidableEq K] in
/-- Registering a first reader with at most one hash gives a tree. -/
theorem welcomeReader_founder (p : Providers E K)
    {d : CollabswarmDocument U C E K} {reader : U} {key : RawKey}
    (opIds : ℕ → ℕ) (fresh : ℕ) (hkem : d.kemKeyPair.isSome)
    (hlength : key.byteLength = eciesP256PublicKeyLength)
    (htree : d.beekem = none)
    (hleaf : d.readerLeafIndices.get? reader = none)
    (hhashes : d.state.hashes.card ≤ 1) :
    (d.welcomeReader p reader key opIds fresh).document.beekem.isSome := by
  have hregistered :
      (d.registerBeeKEMReader reader key fresh).document.beekem.isSome := by
    obtain ⟨sk, hsk⟩ := Option.isSome_iff_exists.1 hkem
    simp only [registerBeeKEMReader, hlength, ne_eq, not_true_eq_false,
      if_false, hleaf, founderGate, htree, not_lt.2 hhashes,
      initializeBeeKEMAsFounder, hsk]
    cases key.imported with
    | none => rfl
    | some memberPublicKey =>
        dsimp only
        split <;> rfl
  rw [welcomeReader]
  dsimp only
  split
  · exact hregistered
  · rw [sendBeeKEMWelcome_beekem]
    exact hregistered

omit [DecidableEq K] in
/-- A first `addReader` without hashes changes the readers or gives a tree. -/
theorem addReader_founder (p : Providers E K)
    {d : CollabswarmDocument U C E K} {reader : U} {key : RawKey} (cid : C)
    (opIds : ℕ → ℕ) (fresh : ℕ) (huser : d.user ∈ d.writers)
    (hkem : d.kemKeyPair.isSome)
    (hlength : key.byteLength = eciesP256PublicKeyLength)
    (htree : d.beekem = none)
    (hleaf : d.readerLeafIndices.get? reader = none)
    (hhashes : d.state.hashes = ∅) :
    (d.addReader p reader (some key) cid opIds fresh).document ≠ d := by
  have hwelcome : ∀ {d' : CollabswarmDocument U C E K}, d'.beekem.isSome →
      d' ≠ d := by
    rintro d' hsome rfl
    simp [htree] at hsome
  have hopen : ¬ (d.beekem.isNone ∧ 0 < d.state.hashes.card) := by
    simp [hhashes]
  have hpair : ¬ (d.beekem.isNone ∧ d.kemKeyPair.isNone) := by
    rintro ⟨-, hnone⟩
    rw [Option.isNone_iff_eq_none] at hnone
    simp [hnone] at hkem
  have hkey : wrongLength (some key) = none := by
    simp [wrongLength, hlength]
  simp only [addReader, huser, not_true_eq_false, if_false, hpair, hkey, hopen]
  by_cases hreader : reader ∈ d.readers
  · simp only [addToReaders, hreader, if_true]
    exact hwelcome (welcomeReader_founder p opIds fresh hkem hlength htree
      hleaf (by simp [hhashes]))
  · simp only [addToReaders, hreader, if_false]
    obtain ⟨cache, ⟨-, e, heq⟩ | heq⟩ := ({ d with
      readers := insert reader d.readers } :
        CollabswarmDocument U C E K).makeChange_cases .reader cid
    · rw [heq]
      intro hsame
      have hreaders := congrArg CollabswarmDocument.readers hsame
      exact hreader (hreaders ▸ Finset.mem_insert_self reader d.readers)
    · rw [heq]
      refine hwelcome (welcomeReader_founder p opIds fresh hkem hlength htree
        hleaf ?_)
      simp [SyncState.applyEntry, hhashes]

end CollabswarmDocument

namespace Instance

open BeeKEM CollabswarmDocument

variable {U C E K : Type} [DecidableEq U] [LinearOrder C] [DecidableEq E]
  [DecidableEq K]

/-- A created document has hashes, and a tree comes from a Welcome that carries
one. -/
structure Gated (i : Instance U C E K) : Prop where
  hashes : i.created = true → i.document.state.hashes.Nonempty
  tree : i.document.beekem.isSome → i.treeWelcomed = true
  welcomed : i.treeWelcomed = true → i.welcomed = true
  leaves : i.document.readerLeafIndices = .empty

omit [DecidableEq U] [LinearOrder C] [DecidableEq E] [DecidableEq K] in
theorem start_gated (user : U) : (start user : Instance U C E K).Gated where
  hashes := by simp [start]
  tree := by simp [start, new]
  welcomed := by simp [start]
  leaves := rfl

omit [DecidableEq U] [LinearOrder C] [DecidableEq E] [DecidableEq K] in
/-- The document after a method that adds hashes. -/
theorem Gated.withDocument {i : Instance U C E K} (h : i.Gated)
    {document : CollabswarmDocument U C E K}
    (hgrows : i.document.Grows document) :
    ({ i with document } : Instance U C E K).Gated where
  hashes := fun hcreated => (h.hashes hcreated).mono hgrows.hashes
  tree := fun htree => h.tree (hgrows.beekem ▸ htree)
  welcomed := h.welcomed
  leaves := hgrows.leaves.trans h.leaves

theorem Gated.step (p : Providers E K) {i : Instance U C E K} (h : i.Gated)
    (e : Event U C E K) : (i.step p e).Gated := by
  cases e with
  | openDocument responses loadedFromPeer allowed opId keyId key cid =>
      obtain ⟨hload, -⟩ := load_grows responses i.document
      set loaded := responses.foldl CollabswarmDocument.sync i.document
        with hloaded
      obtain ⟨hopen, -, hfounding⟩ := loaded.openDocument_grows p
        loadedFromPeer allowed opId keyId key cid
      rw [Instance.step, ← hloaded]
      split
      · rename_i heq
        rw [heq] at hopen
        exact h.withDocument (hload.trans hopen)
      · rename_i document isExisting heq
        rw [heq] at hopen hfounding
        have hafter := h.withDocument (hload.trans hopen)
        refine ⟨?_, hafter.tree, hafter.welcomed, hafter.leaves⟩
        intro hcreated
        rcases Bool.or_eq_true_iff.1 hcreated with hbefore | hnew
        · exact hafter.hashes hbefore
        · obtain rfl : isExisting = false := by simpa using hnew
          exact hfounding rfl
  | setKemKeyPair keyPair =>
      exact h.withDocument ⟨Finset.Subset.refl _, rfl, rfl⟩
  | change cid => exact h.withDocument (i.document.change_grows cid).1
  | addWriter writer cid =>
      exact h.withDocument (i.document.addWriter_grows writer cid).1
  | removeWriter writer cid opId keyId key =>
      exact h.withDocument
        (i.document.removeWriter_grows p writer cid opId keyId key).1
  | sync received => exact h.withDocument (i.document.sync_grows received)
  | welcome message =>
      obtain ⟨hstate, -, hleaves, hbeekem⟩ :=
        i.document.applyBeeKEMWelcome_frame message
      refine ⟨?_, ?_, ?_, hleaves.trans h.leaves⟩
      · intro hcreated
        simp only [Instance.step, hstate]
        exact h.hashes hcreated
      · intro htree
        simp only [Instance.step, Bool.or_eq_true, Bool.and_eq_true] at htree ⊢
        rcases hbeekem with heq | happlied
        · exact Or.inl (h.tree (heq ▸ htree))
        · exact Or.inr happlied
      · intro hwelcomed
        simp only [Instance.step, Bool.or_eq_true, Bool.and_eq_true]
          at hwelcomed ⊢
        rcases hwelcomed with hbefore | happlied
        · exact Or.inl (h.welcomed hbefore)
        · exact Or.inr happlied.1

theorem rooted_step (p : Providers E K) {i : Instance U C E K}
    (h : i.document.Rooted) {e : Event U C E K} (he : Emitted e) :
    (i.step p e).document.Rooted := by
  cases e with
  | openDocument responses loadedFromPeer allowed opId keyId key cid =>
      have hload := (load_grows responses i.document).2 he h
      have hopen := ((responses.foldl CollabswarmDocument.sync
        i.document).openDocument_grows p loadedFromPeer allowed opId keyId key
          cid).2.1 hload
      rw [Instance.step]
      split
      · rename_i heq
        rw [heq] at hopen
        exact hopen
      · rename_i heq
        rw [heq] at hopen
        exact hopen
  | setKemKeyPair keyPair => exact ⟨h.state, h.writers⟩
  | change cid => exact (i.document.change_grows cid).2 h
  | addWriter writer cid => exact (i.document.addWriter_grows writer cid).2 h
  | removeWriter writer cid opId keyId key =>
      exact (i.document.removeWriter_grows p writer cid opId keyId key).2 h
  | sync received => exact h.sync he
  | welcome message =>
      obtain ⟨hstate, hwriters, -, -⟩ :=
        i.document.applyBeeKEMWelcome_frame message
      refine ⟨?_, ?_⟩
      · simpa only [Instance.step, hstate] using h.state
      · simpa only [Instance.step, hstate, hwriters] using h.writers

/-- In a run whose sync messages are as writers emit them, every writer has
hashes. -/
theorem hashes_nonempty_of_writer (p : Providers E K) (user : U)
    (events : List (Event U C E K)) (hevents : ∀ e ∈ events, Emitted e)
    (huser : (exec (step p) (start user) events).document.user ∈
      (exec (step p) (start user) events).document.writers) :
    (exec (step p) (start user) events).document.state.hashes.Nonempty := by
  have hguarded : Guarded (step p) (fun _ e => Emitted e)
      (start user : Instance U C E K) events := guarded_of_forall hevents
  have hstart : (start user : Instance U C E K).document.Rooted :=
    ⟨by simp [start, new, SyncState.Rooted, SyncState.fresh],
      by simp [start, new]⟩
  have hstep : ∀ (i : Instance U C E K) e, i.document.Rooted → Emitted e →
      (i.step p e).document.Rooted := fun i e hi he => rooted_step p hi he
  exact (exec_invariant hstep events _ hstart hguarded).writers ⟨_, huser⟩

/-- After every run, for the first `addReader` of a writer with a KEM key
pair: the founder and only the founder seeds the tree exactly if `open` has
not created the document or a Welcome was applied, and a document that was
found without getting a tree has hashes. -/
theorem founderSeeds_iff_not_created (p : Providers E K) (user : U)
    (events : List (Event U C E K)) (reader : U) (key : RawKey) (cid : C)
    (opIds : ℕ → ℕ) (fresh : ℕ)
    (huser : (exec (step p) (start user) events).document.user ∈
      (exec (step p) (start user) events).document.writers)
    (hkem : (exec (step p) (start user) events).document.kemKeyPair.isSome)
    (hlength : key.byteLength = eciesP256PublicKeyLength) :
    FounderSeeds (exec (step p) (start user) events)
        ((exec (step p) (start user) events).document.addReader p reader
          (some key) cid opIds fresh) ↔
      ¬ ((exec (step p) (start user) events).created = true ∧
          (exec (step p) (start user) events).welcomed = false) ∧
        ((exec (step p) (start user) events).found = true ∧
            (exec (step p) (start user) events).treeWelcomed = false →
          (exec (step p) (start user)
            events).document.state.hashes.Nonempty) := by
  have hgated : (exec (step p) (start user) events).Gated :=
    exec_invariant_of_forall (fun i e hi => hi.step p e) events
      (start_gated user)
  set i := exec (step p) (start user) events
  have hthrows : i.document.beekem = none →
      i.document.state.hashes.Nonempty →
      i.document.addReader p reader (some key) cid opIds fresh =
        ⟨i.document, fresh, .error .addReaderNoTree⟩ :=
    addReader_noTree p reader cid opIds fresh huser hkem hlength
  have hnone : i.treeWelcomed = false → i.document.beekem = none := by
    intro hwelcomed
    rw [← Option.not_isSome_iff_eq_none]
    intro htree
    simp [hgated.tree htree] at hwelcomed
  constructor
  · rintro ⟨hseeds, hstopped⟩
    refine ⟨?_, ?_⟩
    · rintro ⟨hcreated, hwelcomed⟩
      have htree : i.treeWelcomed = false := by
        by_contra hne
        simp [hgated.welcomed (by simpa using hne)] at hwelcomed
      have hout := hseeds ⟨hcreated, hwelcomed⟩
      rw [hthrows (hnone htree) (hgated.hashes hcreated)] at hout
      exact hout.1 rfl
    · intro hfound
      rw [Finset.nonempty_iff_ne_empty]
      intro hempty
      refine addReader_founder p cid opIds fresh huser hkem hlength
        (hnone hfound.2) ?_ hempty (hstopped hfound).1
      rw [hgated.leaves]
      rfl
  · rintro ⟨hcondition, hhashes⟩
    refine ⟨fun hcreated => absurd hcreated hcondition, ?_⟩
    intro hfound
    rw [hthrows (hnone hfound.2) (hhashes hfound)]
    exact ⟨rfl, _, rfl⟩

/-- User `1` loads a document from its founder `0`, whose response makes `1` a
writer too, and installs a KEM key pair. -/
def joinedWriter : List (Event ℕ ℕ ℕ ℕ) :=
  [.openDocument [⟨⟨some 7, some (.mk .writer true .absent), none⟩, [],
      {0, 1}, ∅⟩] true true 0 0 0 0,
    .setKemKeyPair (some ⟨5⟩)]

theorem joinedWriter_stopped :
    FounderSeeds (exec (step numberedProviders) (start 1) joinedWriter)
      ((exec (step numberedProviders) (start 1)
        joinedWriter).document.addReader numberedProviders 2
          (some (rawKey ⟨9⟩)) 8 id 10) := by
  refine (founderSeeds_iff_not_created numberedProviders 1 joinedWriter 2
    (rawKey ⟨9⟩) 8 id 10 (by decide +kernel) (by decide +kernel) rfl).2
    ⟨by decide +kernel, fun _ => ⟨7, by decide +kernel⟩⟩

/-- User `0` creates a document and installs a KEM key pair: the founding
change stands in `_hashes`, and the gate stops the founder. -/
theorem creator_stopped :
    ¬ FounderSeeds (exec (step numberedProviders) (start 0)
        [.openDocument [] false true 0 0 0 7, .setKemKeyPair (some ⟨5⟩)])
      ((exec (step numberedProviders) (start 0)
        [.openDocument [] false true 0 0 0 7, .setKemKeyPair (some ⟨5⟩)]
        ).document.addReader numberedProviders 2 (some (rawKey ⟨9⟩)) 8 id
          10) := by
  rintro ⟨hseeds, -⟩
  exact (hseeds (by decide +kernel)).1 (by decide +kernel)

end Instance

end Collabswarm.Document
