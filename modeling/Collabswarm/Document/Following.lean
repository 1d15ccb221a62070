import Collabswarm.BeeKEM.Agreement
import Collabswarm.Document.CollabswarmDocument

/-!
# Following a revocation

A founder adds and removes readers.  Each Welcome is applied by its reader, the
path update of an addition is not broadcast, and the path update of a removal
reaches every remaining reader before the next call.  Members that joined
earlier do not learn of later additions, so their trees stay small: a reader
follows a removal if its tree still has the founder's root and the founder
resolves the reader's side of it to the reader's key.
-/

namespace Collabswarm.Document

open BeeKEM BeeKEM.Tree TreeMath

/-- The founder's document, the instances of the readers, and the next unused
numbers of key pairs and keychain operations. -/
structure Swarm (U C E K : Type) where
  founder : CollabswarmDocument U C E K
  others : U → CollabswarmDocument U C E K
  nextKey : ℕ
  nextOp : ℕ

/-- A call on the founder's document.  `kemKey` is the KEM key pair of the
reader, whose public half is passed. -/
inductive ReaderCall (U C : Type) where
  | addReader (reader : U) (kemKey : PrivateKey) (cid : C)
  | removeReader (reader : U) (cid : C)
deriving DecidableEq

namespace Swarm

variable {U C E K : Type} [DecidableEq U] [LinearOrder C] [DecidableEq E]
  [DecidableEq K]

/-- A created document whose tree is initialised, and new instances. -/
def found (p : Providers E K) (user : U) (sk : PrivateKey) (keyId : E)
    (key : K) (cid : C) : Swarm U C E K where
  founder := { (((CollabswarmDocument.new user).setKemKeyPair
      (some sk)).openDocument p false true 0 keyId key cid).1 with
    beekem := some (initializeTree sk) }
  others := CollabswarmDocument.new
  nextKey := sk.id + 1
  nextOp := 1

/-- The founder adds a reader, who applies the Welcome that is sent. -/
def addReader (p : Providers E K) (s : Swarm U C E K) (reader : U)
    (kemKey : PrivateKey) (cid : C) : Swarm U C E K :=
  let out := s.founder.addReader p reader (some (rawKey kemKey.publicKey)) cid
    (s.nextOp + ·) s.nextKey
  { founder := out.document
    others := match out.result with
      | .ok (some message) => Function.update s.others reader
          (((s.others reader).setKemKeyPair (some kemKey)).applyBeeKEMWelcome
            message).1
      | _ => s.others
    nextKey := out.fresh
    nextOp := s.nextOp + 1 }

/-- The founder removes a reader, and the remaining readers handle the path
update.  Their keychains do not exchange operations, so they may use the same
number. -/
def removeReader (p : Providers E K) (s : Swarm U C E K) (reader : U)
    (cid : C) : Swarm U C E K :=
  let out := s.founder.removeReader p reader cid s.nextOp s.nextKey
  { founder := out.document
    others := match out.result with
      | .ok (some message) => fun r =>
          if r ∈ out.document.readers then
            ((s.others r).handleBeeKEMPathUpdate p message (s.nextOp + 1)).1
          else s.others r
      | _ => s.others
    nextKey := out.fresh
    nextOp := s.nextOp + 2 }

/-- One call. -/
def step (p : Providers E K) (s : Swarm U C E K) :
    ReaderCall U C → Swarm U C E K
  | .addReader reader kemKey cid => s.addReader p reader kemKey cid
  | .removeReader reader cid => s.removeReader p reader cid

/-- A removal that is broadcast is followed: no remaining reader drops the path
update, and all of them have the key that the founder installs. -/
def Followed (p : Providers E K) (s : Swarm U C E K) :
    ReaderCall U C → Prop
  | .addReader _ _ _ => True
  | .removeReader reader cid => ∀ message,
      (s.founder.removeReader p reader cid s.nextOp s.nextKey).result =
        .ok (some message) →
      ∃ key, (s.removeReader p reader cid).founder.keychain.current.1 =
          .ok (message.pathUpdateEpochId, key) ∧
        ∀ r ∈ (s.removeReader p reader cid).founder.readers,
          ((s.others r).handleBeeKEMPathUpdate p message
              (s.nextOp + 1)).2 = true ∧
            ((s.removeReader p reader cid).others r).keychain.current.1 =
              .ok (message.pathUpdateEpochId, key)

/-- A reader can open the path update that is made from the tree `t`. -/
def opensFor (t : Tree) : Option Tree → Bool
  | none => false
  | some m => Group.opens t m

/-- The condition on a call: for the removal of a leaf, every remaining reader
opens an update from the founder's tree with that leaf and its path blank. -/
def followable (s : Swarm U C E K) : ReaderCall U C → Bool
  | .addReader _ _ _ => true
  | .removeReader reader _ =>
      match s.founder.beekem with
      | none => true
      | some t =>
          match s.founder.readerLeaf t reader with
          | .error _ => true
          | .ok leafIndex =>
              match directPath leafIndex t.numLeaves with
              | none => true
              | some path => decide (∀ r ∈ s.founder.readers.erase reader,
                  opensFor (t.blankMember leafIndex s.nextKey path)
                    (s.others r).beekem = true)

end Swarm

/-! ## The founder's document -/

namespace CollabswarmDocument

variable {U C E K : Type} [DecidableEq U] [LinearOrder C] [DecidableEq E]
  [DecidableEq K]

/-- A document that can invite: its tree is valid with our leaf first, recorded
leaves are inside, cached Welcomes are honest, and the keychain is numbered
below `n`. -/
structure Inviting (d : CollabswarmDocument U C E K) (n : ℕ) : Prop where
  tree : ∃ t, d.beekem = some t ∧ t.Valid 0 ∧ ∀ r leafIndex,
    d.readerLeafIndices.get? r = some leafIndex →
      ∃ k < t.numLeaves, leafIndex = 2 * k
  welcomes : ∀ leafIndex w, d.beekemWelcomeByLeaf.get? leafIndex = some w →
    ∃ j, HonestWelcome w j
  keychain : d.keychain.Numbered n

/-- A document that can follow: if it has a tree, that is valid. -/
structure Joined (d : CollabswarmDocument U C E K) (n : ℕ) : Prop where
  tree : ∀ t, d.beekem = some t → ∃ j, t.Valid j
  keychain : d.keychain.Numbered n

section Founder

omit [LinearOrder C] [DecidableEq E] [DecidableEq K]

/-- Registering a reader in the tree. -/
theorem Inviting.registerBeeKEMReader {d : CollabswarmDocument U C E K}
    {n : ℕ} (h : d.Inviting n) (reader : U) (key : RawKey) (fresh : ℕ) :
    (d.registerBeeKEMReader reader key fresh).document.Inviting n ∧
      ∀ w, (d.registerBeeKEMReader reader key fresh).result = .ok (some w) →
        ∃ j, HonestWelcome w j := by
  obtain ⟨t, ht, hvalid, hleaves⟩ := h.tree
  rw [CollabswarmDocument.registerBeeKEMReader]
  split
  · exact ⟨h, fun w hw => by cases hw⟩
  dsimp only
  split
  · rename_i existingLeaf _
    refine ⟨⟨h.tree, h.welcomes, h.keychain⟩, ?_⟩
    intro w hw
    exact h.welcomes existingLeaf w (Except.ok.inj hw)
  have hgate : ({ d with readerKemPublicKeys :=
      d.readerKemPublicKeys.set reader key } :
        CollabswarmDocument U C E K).founderGate =
      ({ d with readerKemPublicKeys :=
        d.readerKemPublicKeys.set reader key }, .ok t) := by
    simp only [founderGate, ht]
  rw [hgate]
  dsimp only
  split
  · exact ⟨⟨h.tree, h.welcomes, h.keychain⟩, fun w hw => by cases hw⟩
  · rename_i memberPublicKey _
    obtain ⟨hvalid', hnum, hhonest⟩ := addMember_spec hvalid memberPublicKey
      fresh
    have hleaves' : ∀ r leafIndex,
        d.readerLeafIndices.get? r = some leafIndex →
        ∃ k < (t.addMember memberPublicKey fresh).tree.numLeaves,
          leafIndex = 2 * k := by
      intro r leafIndex hleaf
      obtain ⟨k, hk, heq⟩ := hleaves r leafIndex hleaf
      exact ⟨k, by omega, heq⟩
    split
    · exact ⟨⟨⟨_, rfl, hvalid', hleaves'⟩, h.welcomes, h.keychain⟩,
        fun w hw => by cases hw⟩
    · rename_i u welcome secret hresult
      have hwelcome := hhonest u welcome secret hresult
      refine ⟨⟨⟨_, rfl, hvalid', ?_⟩, ?_, h.keychain⟩, ?_⟩
      · intro r leafIndex hleaf
        dsimp only at hleaf
        rw [InsertionMap.get?_set] at hleaf
        split at hleaf
        · cases hleaf
          exact ⟨t.numLeaves, by omega, hwelcome.leafIndex⟩
        · exact hleaves' r leafIndex hleaf
      · intro leafIndex w hw
        dsimp only at hw
        rw [InsertionMap.get?_set] at hw
        split at hw
        · cases hw
          exact ⟨_, hwelcome⟩
        · exact h.welcomes leafIndex w hw
      · intro w hw
        cases hw
        exact ⟨_, hwelcome⟩

end Founder

omit [LinearOrder C] [DecidableEq K] in
/-- The Welcome that is sent carries operations numbered up to `n`. -/
theorem Inviting.sendBeeKEMWelcome (p : Providers E K)
    {d : CollabswarmDocument U C E K} {n : ℕ} (h : d.Inviting n) (reader : U)
    (key : RawKey) (beekemWelcome : Option Welcome) :
    (d.sendBeeKEMWelcome p reader key beekemWelcome (n + ·)).1.Inviting n ∧
      ∀ message, (d.sendBeeKEMWelcome p reader key beekemWelcome
          (n + ·)).2 = some message →
        (∀ op ∈ message.keychainChanges, Keychain.OpBelow (n + 1) op) ∧
          message.beekemWelcome = beekemWelcome := by
  have hkeychain := h.keychain.current
  rw [CollabswarmDocument.sendBeeKEMWelcome]
  rcases hcurrent : d.keychain.current with ⟨e | ⟨currentKeyID, _⟩, keychain⟩
  · rw [hcurrent] at hkeychain
    exact ⟨⟨h.tree, h.welcomes, hkeychain⟩, fun message hm => by cases hm⟩
  · rw [hcurrent] at hkeychain
    dsimp only
    have hinviting : ({ d with keychain } :
        CollabswarmDocument U C E K).Inviting n :=
      ⟨h.tree, h.welcomes, hkeychain⟩
    split
    · rename_i keychainChanges recipientKemKey hchanges _
      refine ⟨hinviting, ?_⟩
      intro message hm
      cases hm
      refine ⟨?_, rfl⟩
      have hslice : keychain.currentKeyChange p.keychain (n + ·) =
          .ok keychainChanges →
          ∀ op ∈ keychainChanges, Keychain.OpBelow (n + 1) op :=
        Keychain.currentKeyChange_below
      rw [keychainChangesForWelcome] at hchanges
      split at hchanges
      · cases hchanges
        intro op hop
        exact (hkeychain.history p.keychain op hop).mono (Nat.le_succ n)
      · exact hslice hchanges
      · exact hslice hchanges
    · exact ⟨hinviting, fun message hm => by cases hm⟩

omit [DecidableEq K] in
theorem Inviting.addToReaders {d : CollabswarmDocument U C E K} {n : ℕ}
    (h : d.Inviting n) (reader : U) (cid : C) :
    (d.addToReaders reader cid).1.Inviting n := by
  rw [CollabswarmDocument.addToReaders]
  split
  · exact h
  · obtain ⟨cache, ⟨-, e, heq⟩ | heq⟩ := ({ d with
      readers := insert reader d.readers } :
        CollabswarmDocument U C E K).makeChange_cases .reader cid
    · rw [heq]
      exact ⟨h.tree, h.welcomes, h.keychain.cache cache⟩
    · rw [heq]
      exact ⟨h.tree, h.welcomes, h.keychain.cache cache⟩

omit [DecidableEq K] in
/-- After `addReader` the founder can still invite, and the Welcome that was
sent is honest. -/
theorem Inviting.addReader (p : Providers E K)
    {d : CollabswarmDocument U C E K} {n : ℕ} (h : d.Inviting n) (reader : U)
    (key : Option RawKey) (cid : C) (fresh : ℕ) :
    (d.addReader p reader key cid (n + ·) fresh).document.Inviting n ∧
      ∀ message, (d.addReader p reader key cid (n + ·) fresh).result =
          .ok (some message) →
        (∀ op ∈ message.keychainChanges, Keychain.OpBelow (n + 1) op) ∧
          ∀ w ∈ message.beekemWelcome, ∃ j, HonestWelcome w j := by
  rw [CollabswarmDocument.addReader]
  split
  · exact ⟨h, fun message hm => by cases hm⟩
  split
  · exact ⟨h, fun message hm => by cases hm⟩
  split
  · exact ⟨h, fun message hm => by cases hm⟩
  split
  · exact ⟨h, fun message hm => by cases hm⟩
  have hadded := h.addToReaders reader cid
  rcases hadd : d.addToReaders reader cid with ⟨d', e | ⟨⟩⟩
  · rw [hadd] at hadded
    exact ⟨hadded, fun message hm => by cases hm⟩
  rw [hadd] at hadded
  cases key with
  | none => exact ⟨hadded, fun message hm => by cases hm⟩
  | some key =>
      obtain ⟨hregistered, hhonest⟩ :=
        hadded.registerBeeKEMReader reader key fresh
      dsimp only
      rw [welcomeReader]
      dsimp only
      split
      · exact ⟨hregistered, fun message hm => by cases hm⟩
      · rename_i beekemWelcome hresult
        obtain ⟨hsent, hmessage⟩ := hregistered.sendBeeKEMWelcome p reader key
          beekemWelcome
        refine ⟨hsent, ?_⟩
        intro message hm
        obtain ⟨hbelow, hwelcome⟩ := hmessage message (Except.ok.inj hm)
        refine ⟨hbelow, ?_⟩
        intro w hw
        rw [hwelcome] at hw
        exact hhonest w (by rw [hresult, hw])

omit [LinearOrder C] [DecidableEq E] [DecidableEq K] in
/-- The leaf that is removed lies in the tree, so it has a path. -/
theorem readerLeaf_path {d : CollabswarmDocument U C E K} {t : Tree}
    {reader : U} {leafIndex : ℕ}
    (hleaves : ∀ r leafIndex, d.readerLeafIndices.get? r = some leafIndex →
      ∃ k < t.numLeaves, leafIndex = 2 * k)
    (h : d.readerLeaf t reader = .ok leafIndex) :
    ∃ path, directPath leafIndex t.numLeaves = some path := by
  obtain ⟨k, hk, rfl⟩ : ∃ k < t.numLeaves, leafIndex = 2 * k := by
    rw [readerLeaf] at h
    split at h
    · rename_i recorded
      cases h
      exact hleaves reader leafIndex recorded
    · cases h
    · rename_i kemPub _ _
      split at h
      · rename_i found hfound
        cases h
        obtain ⟨pk, -, hfind⟩ := Option.bind_eq_some_iff.1 hfound
        obtain ⟨k, hk, rfl⟩ := List.mem_map.1 (List.mem_of_find?_eq_some hfind)
        refine ⟨k, List.mem_range.1 hk, ?_⟩
        rw [leafToNodeIndex]
        omega
      · cases h
  by_cases hn : 2 ≤ t.numLeaves
  · exact ⟨_, directPath_leaf hn hk⟩
  · obtain rfl : k = 0 := by omega
    rw [show t.numLeaves = 1 by omega]
    exact ⟨_, rfl⟩

/-- What a broadcast removal is: the leaf and its path are blanked, the path
update is made from that tree, and the key of its root becomes the current
one. -/
structure Revoked (p : Providers E K) (d : CollabswarmDocument U C E K)
    (reader : U) (fresh : ℕ)
    (out : Outcome U C E K (Option (PathUpdateMessage E))) where
  tree : Tree
  leafIndex : ℕ
  path : List ℕ
  update : PathUpdate
  secret : RootSecret
  beekem : d.beekem = some tree
  leaf : d.readerLeaf tree reader = .ok leafIndex
  directPath_eq : directPath leafIndex tree.numLeaves = some path
  opened : ∀ m j, m.Valid j →
    Group.opens (tree.blankMember leafIndex fresh path) m = true →
    ∃ m', m.processPathUpdate update = (m', .ok secret) ∧ m'.Valid j
  result : out.result = .ok (some ⟨update,
    p.deriveEpochIdFromRootSecret secret⟩)
  readers : out.document.readers = d.readers.erase reader
  current : out.document.keychain.current.1 = .ok
    (p.deriveEpochIdFromRootSecret secret,
      p.deriveDocumentKeyFromRootSecret secret)

omit [DecidableEq K] in
/-- `removeReader` changes and broadcasts nothing unless a writer removes a
reader whose leaf is found. -/
theorem removeReader_refused (p : Providers E K)
    {d : CollabswarmDocument U C E K} {t : Tree} (ht : d.beekem = some t)
    {reader : U} (cid : C) (n fresh : ℕ)
    (h : ¬ (d.user ∈ d.writers ∧ reader ∈ d.readers ∧
      ∃ leafIndex, d.readerLeaf t reader = .ok leafIndex)) :
    (d.removeReader p reader cid n fresh).document = d ∧
      ∀ message, (d.removeReader p reader cid n fresh).result ≠
        .ok (some message) := by
  by_cases huser : d.user ∈ d.writers
  swap
  · simp only [CollabswarmDocument.removeReader, huser, not_false_eq_true,
      if_true]
    exact ⟨trivial, fun message hm => by cases hm⟩
  by_cases hreader : reader ∈ d.readers
  swap
  · simp only [CollabswarmDocument.removeReader, huser, hreader,
      not_true_eq_false, not_false_eq_true, if_true, if_false]
    exact ⟨trivial, fun message hm => by cases hm⟩
  rcases hleaf : d.readerLeaf t reader with e | leafIndex
  · simp only [CollabswarmDocument.removeReader, huser, hreader,
      not_true_eq_false, if_false, ht, hleaf]
    exact ⟨trivial, fun message hm => by cases hm⟩
  · exact absurd ⟨huser, hreader, leafIndex, hleaf⟩ h

omit [DecidableEq K] in
/-- What `removeReader` does when it goes through. -/
theorem removeReader_eq (p : Providers E K)
    {d : CollabswarmDocument U C E K} {t : Tree} (ht : d.beekem = some t)
    {reader : U} (cid : C) (n fresh : ℕ) {leafIndex : ℕ} {u : PathUpdate}
    {secret : RootSecret} (huser : d.user ∈ d.writers)
    (hreader : reader ∈ d.readers)
    (hleaf : d.readerLeaf t reader = .ok leafIndex)
    (hresult : (t.removeMember leafIndex fresh).result = .ok (u, secret)) :
    ∃ cache state, d.removeReader p reader cid n fresh = ⟨(({ d with
        beekem := some (t.removeMember leafIndex fresh).tree
        readerLeafIndices := d.readerLeafIndices.set reader leafIndex
        readers := d.readers.erase reader
        keychain := { d.keychain with cache }
        state } : CollabswarmDocument U C E K).forgetReader reader
          leafIndex).installEpochKey p n secret,
        (t.removeMember leafIndex fresh).fresh,
        .ok (some ⟨u, p.deriveEpochIdFromRootSecret secret⟩)⟩ := by
  -- the document between the rotation of the tree and that of the key
  set rotated : CollabswarmDocument U C E K := { d with
    beekem := some (t.removeMember leafIndex fresh).tree
    readerLeafIndices := d.readerLeafIndices.set reader leafIndex
    readers := d.readers.erase reader } with hrotated
  obtain ⟨cache, state, hchanged⟩ : ∃ cache state,
      (rotated.makeChange .reader cid).1 =
        { rotated with keychain := { d.keychain with cache }, state } := by
    obtain ⟨cache, ⟨-, e, heq⟩ | heq⟩ := rotated.makeChange_cases .reader cid
    · exact ⟨cache, _, by rw [heq]⟩
    · exact ⟨cache, _, by rw [heq]⟩
  refine ⟨cache, state, ?_⟩
  simp only [CollabswarmDocument.removeReader, huser, hreader,
    not_true_eq_false, if_false, ht, hleaf, hresult, ← hrotated, hchanged]
  rfl

omit [DecidableEq K] in
/-- After `removeReader` the founder can still invite; either nothing was
broadcast, or the reader is revoked. -/
theorem Inviting.removeReader (p : Providers E K)
    {d : CollabswarmDocument U C E K} {n : ℕ} (h : d.Inviting n) (reader : U)
    (cid : C) (fresh : ℕ) :
    (d.removeReader p reader cid n fresh).document.Inviting (n + 1) ∧
      ((∀ message, (d.removeReader p reader cid n fresh).result ≠
          .ok (some message)) ∨
        Nonempty (Revoked p d reader fresh
          (d.removeReader p reader cid n fresh))) := by
  obtain ⟨t, ht, hvalid, hleaves⟩ := h.tree
  by_cases hremovable : d.user ∈ d.writers ∧ reader ∈ d.readers ∧
      ∃ leafIndex, d.readerLeaf t reader = .ok leafIndex
  swap
  · obtain ⟨hdocument, hnone⟩ :=
      removeReader_refused p ht cid n fresh hremovable
    rw [hdocument]
    exact ⟨⟨h.tree, h.welcomes, h.keychain.mono (Nat.le_succ n)⟩,
      Or.inl hnone⟩
  obtain ⟨huser, hreader, leafIndex, hleaf⟩ := hremovable
  obtain ⟨path, hpath⟩ := readerLeaf_path hleaves hleaf
  obtain ⟨hplaced, hown⟩ :=
    blankMember_placed hvalid.toPlaced leafIndex fresh path
  obtain ⟨u, secret, hresult, hvalid', -, hopened⟩ :=
    Group.updatePath_exchange (fresh + 1)
      ⟨hplaced, blankMember_matched hvalid leafIndex fresh path⟩
      (Or.inr hown)
  have hremove : t.removeMember leafIndex fresh =
      (t.blankMember leafIndex fresh path).updatePath (fresh + 1) := by
    rw [removeMember, hpath]
  rw [← hremove] at hresult hvalid'
  have hnum : (t.removeMember leafIndex fresh).tree.numLeaves =
      t.numLeaves := by
    rw [hremove, updatePath_numLeaves, blankMember_numLeaves]
  obtain ⟨cache, state, heq⟩ :=
    removeReader_eq p ht cid n fresh huser hreader hleaf hresult
  have hkeychain : ({ d.keychain with cache } : Keychain E K).Numbered n :=
    h.keychain.cache cache
  rw [heq]
  refine ⟨⟨⟨(t.removeMember leafIndex fresh).tree, rfl, hvalid', ?_⟩, ?_, ?_⟩,
    Or.inr ⟨{
      tree := t
      leafIndex := leafIndex
      path := path
      update := u
      secret := secret
      beekem := ht
      leaf := hleaf
      directPath_eq := hpath
      opened := ?_
      result := rfl
      readers := rfl
      current := ?_ }⟩⟩
  · intro r leaf hget
    have hget' : ((d.readerLeafIndices.set reader leafIndex).erase
        reader).get? r = some leaf := hget
    rw [InsertionMap.get?_erase, InsertionMap.get?_set] at hget'
    split at hget'
    · cases hget'
    · obtain ⟨k, hk, hkeq⟩ := hleaves r leaf hget'
      exact ⟨k, by omega, hkeq⟩
  · intro leaf w hget
    have hget' : (d.beekemWelcomeByLeaf.erase leafIndex).get? leaf =
        some w := hget
    rw [InsertionMap.get?_erase] at hget'
    split at hget'
    · cases hget'
    · exact h.welcomes leaf w hget'
  · exact hkeychain.addEpochKey p.keychain le_rfl _ _
  · intro m j hm hopens
    obtain ⟨m', hprocess, hvalid'', -⟩ := hopened m j hm hopens
    exact ⟨m', hprocess, hvalid''⟩
  · exact hkeychain.wellFormed.current_addEpochKey p.keychain
      (hkeychain.newNumber le_rfl) _ _

/-! ## The readers' documents -/

omit [DecidableEq U] [LinearOrder C] in
/-- A reader who applies an honest Welcome can follow. -/
theorem Joined.applyBeeKEMWelcome {d : CollabswarmDocument U C E K} {n : ℕ}
    (h : d.Joined n) {message : WelcomeMessage U E K}
    (hbelow : ∀ op ∈ message.keychainChanges, Keychain.OpBelow n op)
    (hhonest : ∀ w ∈ message.beekemWelcome, ∃ j, HonestWelcome w j) :
    (d.applyBeeKEMWelcome message).1.Joined n := by
  rw [CollabswarmDocument.applyBeeKEMWelcome]
  split
  · exact h
  rename_i sk _
  split
  · exact h
  dsimp only
  set merged : CollabswarmDocument U C E K :=
    { d with keychain := d.keychain.merge message.keychainChanges }
  have hkeychain := h.keychain.merge hbelow
  have hbootstrap : (merged.bootstrap sk message.beekemWelcome).Joined n := by
    cases hwelcome : message.beekemWelcome with
    | none => exact ⟨h.tree, hkeychain⟩
    | some w =>
        obtain ⟨j, hj⟩ := hhonest w hwelcome
        rw [bootstrap]
        split
        · exact ⟨h.tree, hkeychain⟩
        · rename_i t secret hprocess
          refine ⟨?_, hkeychain⟩
          intro t' ht'
          cases ht'
          exact ⟨j, (hj.processed hprocess).1⟩
  obtain ⟨cache, invitationEpoch, heq⟩ := recordInvitationEpoch_eq
    (merged.bootstrap sk message.beekemWelcome) message.welcomeEpochId
  rw [heq]
  exact ⟨hbootstrap.tree, hbootstrap.keychain.cache cache⟩

omit [DecidableEq U] [LinearOrder C] [DecidableEq K] in
/-- A reader who opens the path update installs its key. -/
theorem Joined.handleBeeKEMPathUpdate (p : Providers E K)
    {d : CollabswarmDocument U C E K} {n j : ℕ} (h : d.Joined n)
    {m m' : Tree} {u : PathUpdate} {secret : RootSecret}
    (hm : d.beekem = some m)
    (hprocess : m.processPathUpdate u = (m', .ok secret))
    (hvalid : m'.Valid j) {opId : ℕ} (hopId : n ≤ opId) :
    (d.handleBeeKEMPathUpdate p
        ⟨u, p.deriveEpochIdFromRootSecret secret⟩ opId).2 = true ∧
      (d.handleBeeKEMPathUpdate p
        ⟨u, p.deriveEpochIdFromRootSecret secret⟩
          opId).1.keychain.current.1 = .ok
            (p.deriveEpochIdFromRootSecret secret,
              p.deriveDocumentKeyFromRootSecret secret) ∧
      (d.handleBeeKEMPathUpdate p
        ⟨u, p.deriveEpochIdFromRootSecret secret⟩ opId).1.Joined
          (opId + 1) := by
  simp only [CollabswarmDocument.handleBeeKEMPathUpdate, hm, hprocess, if_true]
  refine ⟨trivial, ?_, ?_, ?_⟩
  · exact h.keychain.wellFormed.current_addEpochKey p.keychain
      (h.keychain.newNumber hopId) _ _
  · intro t ht
    cases ht
    exact ⟨j, hvalid⟩
  · exact h.keychain.addEpochKey p.keychain hopId _ _

end CollabswarmDocument

/-! ## Runs -/

namespace Swarm

open CollabswarmDocument

variable {U C E K : Type} [DecidableEq U] [LinearOrder C] [DecidableEq E]
  [DecidableEq K]

/-- The founder can invite and the readers can follow. -/
structure Seeded (s : Swarm U C E K) : Prop where
  founder : s.founder.Inviting s.nextOp
  others : ∀ r, (s.others r).Joined s.nextOp

omit [DecidableEq K] in
theorem found_seeded (p : Providers E K) (user : U) (sk : PrivateKey)
    (keyId : E) (key : K) (cid : C) :
    (found p user sk keyId key cid : Swarm U C E K).Seeded := by
  refine ⟨?_, ?_⟩
  · set opened : CollabswarmDocument U C E K := { (new user).setKemKeyPair
      (some sk) with
      writers := insert user ∅
      keychain := (Keychain.new.add p.keychain 0 keyId key).1 } with hopened
    have hkeychain : opened.keychain.Numbered 1 :=
      (Keychain.new_numbered 0).addEpochKey p.keychain le_rfl keyId key
    have hopen : (((new user).setKemKeyPair (some sk)).openDocument p false
        true 0 keyId key cid).1 = (opened.makeChange .writer cid).1 := by
      rw [openDocument]
      split
      · rename_i hexisting
        simp [setKemKeyPair, CollabswarmDocument.new, SyncState.fresh]
          at hexisting
      · split
        · rename_i hallowed
          cases hallowed
        · split
          · rename_i heq
            exact (congrArg Prod.fst heq).symm
          · rename_i heq
            exact (congrArg Prod.fst heq).symm
    obtain ⟨cache, state, heq⟩ : ∃ cache state,
        (found p user sk keyId key cid : Swarm U C E K).founder =
          { opened with
            keychain := { opened.keychain with cache }
            state
            beekem := some (initializeTree sk) } := by
      rw [found]
      dsimp only
      rw [hopen]
      obtain ⟨cache, ⟨-, e, heq⟩ | heq⟩ := opened.makeChange_cases .writer cid
      · exact ⟨cache, opened.state, by rw [heq]⟩
      · exact ⟨cache, _, by rw [heq]⟩
    rw [heq]
    refine ⟨⟨_, rfl, Group.initializeTree_valid sk, ?_⟩, ?_,
      hkeychain.cache cache⟩
    · intro r leafIndex hget
      cases hget
    · intro leafIndex w hget
      cases hget
  · intro r
    refine ⟨?_, Keychain.new_numbered 1⟩
    intro t ht
    cases ht

theorem addReader_seeded (p : Providers E K) {s : Swarm U C E K}
    (h : s.Seeded) (reader : U) (kemKey : PrivateKey) (cid : C) :
    (s.addReader p reader kemKey cid).Seeded := by
  obtain ⟨hfounder, hmessage⟩ := h.founder.addReader p reader
    (some (rawKey kemKey.publicKey)) cid s.nextKey
  have hothers : ∀ r, (s.others r).Joined (s.nextOp + 1) := fun r =>
    ⟨(h.others r).tree, (h.others r).keychain.mono (Nat.le_succ _)⟩
  refine ⟨⟨hfounder.tree, hfounder.welcomes,
    hfounder.keychain.mono (Nat.le_succ _)⟩, ?_⟩
  intro r
  set out := s.founder.addReader p reader (some (rawKey kemKey.publicKey)) cid
    (s.nextOp + ·) s.nextKey with hout
  rcases hresult : out.result with e | _ | message
  · simp only [addReader, ← hout, hresult]
    exact hothers r
  · simp only [addReader, ← hout, hresult]
    exact hothers r
  · obtain ⟨hbelow, hhonest⟩ := hmessage message hresult
    simp only [addReader, ← hout, hresult]
    by_cases hr : r = reader
    · subst hr
      rw [Function.update_self]
      have hjoined : ((s.others r).setKemKeyPair (some kemKey)).Joined
          (s.nextOp + 1) := ⟨(hothers r).tree, (hothers r).keychain⟩
      exact hjoined.applyBeeKEMWelcome hbelow hhonest
    · rw [Function.update_of_ne hr]
      exact hothers r

omit [DecidableEq K] in
/-- A followable removal is followed. -/
theorem removeReader_followed (p : Providers E K) {s : Swarm U C E K}
    (h : s.Seeded) {reader : U} {cid : C}
    (hguard : s.followable (.removeReader reader cid) = true) :
    s.Followed p (.removeReader reader cid) ∧
      (s.removeReader p reader cid).Seeded := by
  obtain ⟨hfounder, hnone | hbroadcast⟩ :=
    h.founder.removeReader p reader cid s.nextKey
  · refine ⟨fun message hm => absurd hm (hnone message), ?_, ?_⟩
    · exact ⟨hfounder.tree, hfounder.welcomes,
        hfounder.keychain.mono (Nat.le_succ _)⟩
    · intro r
      have hsame : (s.removeReader p reader cid).others = s.others := by
        rw [removeReader]
        dsimp only
        split
        · rename_i message hm
          exact absurd hm (hnone message)
        · rfl
      rw [hsame]
      exact ⟨(h.others r).tree, (h.others r).keychain.mono
        (Nat.le_add_right _ _)⟩
  · obtain ⟨hrevoked⟩ := hbroadcast
    set message : PathUpdateMessage E := ⟨hrevoked.update,
      p.deriveEpochIdFromRootSecret hrevoked.secret⟩ with hmessage
    have hothers : ∀ r, (s.removeReader p reader cid).others r =
        if r ∈ s.founder.readers.erase reader then
          ((s.others r).handleBeeKEMPathUpdate p message (s.nextOp + 1)).1
        else s.others r := by
      intro r
      simp only [removeReader, hrevoked.result, hrevoked.readers, hmessage]
    have hopened : ∀ r ∈ s.founder.readers.erase reader,
        ((s.others r).handleBeeKEMPathUpdate p message
            (s.nextOp + 1)).2 = true ∧
          ((s.others r).handleBeeKEMPathUpdate p message
            (s.nextOp + 1)).1.keychain.current.1 = .ok
              (p.deriveEpochIdFromRootSecret hrevoked.secret,
                p.deriveDocumentKeyFromRootSecret hrevoked.secret) ∧
          ((s.others r).handleBeeKEMPathUpdate p message
            (s.nextOp + 1)).1.Joined (s.nextOp + 1 + 1) := by
      intro r hr
      simp only [followable, hrevoked.beekem, hrevoked.leaf,
        hrevoked.directPath_eq, decide_eq_true_eq] at hguard
      have hopens := hguard r hr
      rcases htree : (s.others r).beekem with _ | m
      · rw [htree] at hopens
        cases hopens
      · rw [htree] at hopens
        obtain ⟨j, hj⟩ := (h.others r).tree m htree
        obtain ⟨m', hprocess, hvalid⟩ := hrevoked.opened m j hj hopens
        exact (h.others r).handleBeeKEMPathUpdate p htree hprocess hvalid
          (Nat.le_succ _)
    refine ⟨?_, ?_, ?_⟩
    · intro message' hm
      rw [hrevoked.result] at hm
      cases hm
      refine ⟨_, hrevoked.current, ?_⟩
      intro r hr
      have hr' : r ∈ s.founder.readers.erase reader := hrevoked.readers ▸ hr
      obtain ⟨hinstalled, hcurrent, -⟩ := hopened r hr'
      refine ⟨hinstalled, ?_⟩
      rw [hothers, if_pos hr']
      exact hcurrent
    · exact ⟨hfounder.tree, hfounder.welcomes,
        hfounder.keychain.mono (Nat.le_succ _)⟩
    · intro r
      rw [hothers]
      split
      · rename_i hr
        exact (hopened r hr).2.2
      · exact ⟨(h.others r).tree, (h.others r).keychain.mono
          (Nat.le_add_right _ _)⟩

/-- In every run of followable calls each removal is followed by all remaining
readers. -/
theorem followed_of_followable (p : Providers E K) (user : U)
    (sk : PrivateKey) (keyId : E) (key : K) (cid : C)
    (calls : List (ReaderCall U C))
    (hrun : Guarded (step p) (fun s call => s.followable call = true)
      (found p user sk keyId key cid : Swarm U C E K) calls) :
    Guarded (step p) (Followed p) (found p user sk keyId key cid) calls := by
  have hstep : ∀ (s : Swarm U C E K) call, s.Seeded →
      s.followable call = true → s.Followed p call ∧ (s.step p call).Seeded := by
    intro s call h hguard
    cases call with
    | addReader reader kemKey cid =>
        exact ⟨trivial, addReader_seeded p h reader kemKey cid⟩
    | removeReader reader cid => exact removeReader_followed p h hguard
  exact guarded_of_invariant hstep calls _
    (found_seeded p user sk keyId key cid) hrun

/-- Readers `1` and `2` are added and `1` is removed: `2`, who joined last,
follows. -/
theorem last_reader_follows :
    (exec (step numberedProviders) (found numberedProviders 0 ⟨100⟩ 7 7 0)
        [.addReader 1 ⟨50⟩ 1, .addReader 2 ⟨51⟩ 2,
          .removeReader 1 3]).founder.readers = {2} ∧
      Guarded (step numberedProviders) (Followed numberedProviders)
        (found numberedProviders 0 ⟨100⟩ 7 7 0)
        [.addReader 1 ⟨50⟩ 1, .addReader 2 ⟨51⟩ 2, .removeReader 1 3] :=
  ⟨by decide +kernel, followed_of_followable numberedProviders 0 ⟨100⟩ 7 7 0 _
    (by decide +kernel)⟩

/-- Whether reader `1` takes the path update of the removal of reader `2`. -/
def takesRemoval (s : Swarm ℕ ℕ ℕ ℕ) : Bool :=
  match (s.founder.removeReader numberedProviders 2 3 s.nextOp s.nextKey).result with
  | .ok (some message) => ((s.others 1).handleBeeKEMPathUpdate
      numberedProviders message (s.nextOp + 1)).2
  | _ => true

/-- If `2` is removed instead, `1` drops the path update: its tree has two
leaves, the founder's three. -/
theorem first_reader_drops :
    ¬ Guarded (step numberedProviders) (Followed numberedProviders)
      (found numberedProviders 0 ⟨100⟩ 7 7 0)
      [.addReader 1 ⟨50⟩ 1, .addReader 2 ⟨51⟩ 2, .removeReader 2 3] := by
  rintro ⟨-, -, hfollowed, -⟩
  set s := step numberedProviders (step numberedProviders
    (found numberedProviders 0 ⟨100⟩ 7 7 0) (.addReader 1 ⟨50⟩ 1))
    (.addReader 2 ⟨51⟩ 2) with hs
  have hdropped : takesRemoval s = false := by
    rw [hs]
    decide +kernel
  have hremains : 1 ∈ (s.removeReader numberedProviders 2 3).founder.readers := by
    rw [hs]
    decide +kernel
  unfold takesRemoval at hdropped
  split at hdropped
  · rename_i message hresult
    obtain ⟨key, -, hothers⟩ := hfollowed message hresult
    rw [(hothers 1 hremains).1] at hdropped
    cases hdropped
  · cases hdropped

end Swarm

end Collabswarm.Document
