import Collabswarm.BeeKEM.Processing
import Collabswarm.BeeKEM.Receive
import Collabswarm.Document.Following
import Collabswarm.Keychain.Lookup

/-!
# Replayed key messages

A member keeps no record of the Welcomes and path updates it has applied, so a
message that arrives again is processed again.  A path update is judged by
whether it can be opened and agrees with its own epoch id, and a Welcome
replaces the tree.  A replay changes nothing if it is not opened, is stopped
below the root, or brings the root key that is there.
-/

namespace Collabswarm.Document

open BeeKEM BeeKEM.Tree

/-- A key message as it is delivered. -/
inductive KeyMessage (U E K : Type) where
  | welcome (message : WelcomeMessage U E K)
  | pathUpdate (message : PathUpdateMessage E)
deriving DecidableEq

/-- The other methods of a document. -/
inductive LocalCall (U C E K : Type) where
  | setKemKeyPair (keyPair : Option PrivateKey)
  | openDocument (loadedFromPeer allowed : Bool) (opId : ℕ) (keyId : E)
      (key : K) (cid : C)
  | sync (received : CollabswarmDocument.Received U C E K)
  | change (cid : C)
  | addWriter (writer : U) (cid : C)
  | removeWriter (writer : U) (cid : C) (opId : ℕ) (keyId : E) (key : K)
  | addReader (reader : U) (kemKey : Option RawKey) (cid : C)
      (opIds : ℕ → ℕ) (fresh : ℕ)
  | removeReader (reader : U) (cid : C) (opId fresh : ℕ)

/-- What happens to a member: a key message arrives, which may make the
keychain operation `opId`, or a method is called. -/
inductive MemberEvent (U C E K : Type) where
  | deliver (message : KeyMessage U E K) (opId : ℕ)
  | call (localCall : LocalCall U C E K)

/-- A document and the key messages that it has accepted. -/
structure Member (U C E K : Type) where
  document : CollabswarmDocument U C E K
  accepted : List (KeyMessage U E K)

namespace CollabswarmDocument

variable {U C E K : Type} [DecidableEq U] [LinearOrder C] [DecidableEq E]
  [DecidableEq K]

/-- Handle a key message, with whether it was accepted. -/
def receive (p : Providers E K) (d : CollabswarmDocument U C E K)
    (opId : ℕ) : KeyMessage U E K → CollabswarmDocument U C E K × Bool
  | .welcome message => d.applyBeeKEMWelcome message
  | .pathUpdate message => d.handleBeeKEMPathUpdate p message opId

/-- Call a method. -/
def run (p : Providers E K) (d : CollabswarmDocument U C E K) :
    LocalCall U C E K → CollabswarmDocument U C E K
  | .setKemKeyPair keyPair => d.setKemKeyPair keyPair
  | .openDocument loadedFromPeer allowed opId keyId key cid =>
      (d.openDocument p loadedFromPeer allowed opId keyId key cid).1
  | .sync received => d.sync received
  | .change cid => (d.change cid).1
  | .addWriter writer cid => (d.addWriter writer cid).1
  | .removeWriter writer cid opId keyId key =>
      (d.removeWriter p writer cid opId keyId key).1
  | .addReader reader kemKey cid opIds fresh =>
      (d.addReader p reader kemKey cid opIds fresh).document
  | .removeReader reader cid opId fresh =>
      (d.removeReader p reader cid opId fresh).document

/-- The numbers of the keychain operations that a method makes are new. -/
def NumbersNew (d : CollabswarmDocument U C E K) :
    LocalCall U C E K → Prop
  | .openDocument _ _ opId _ _ _ => d.keychain.NewNumber opId
  | .removeWriter _ _ opId _ _ => d.keychain.NewNumber opId
  | .removeReader _ _ opId _ => d.keychain.NewNumber opId
  | _ => True

/-- What a replay must not change: the root secret, the leaf index and the
current key. -/
def keyState (d : CollabswarmDocument U C E K) :
    Option (Except BeeKEM.Error RootSecret × Option ℕ) ×
      Except KeychainError (E × K) :=
  (d.beekem.map fun t => (t.getRootSecret, t.myLeafIndex),
    d.keychain.current.1)

/-- The key of the root that is there is not installed by a message with this
epoch id, or it is the current key already. -/
def settled (p : Providers E K) (d : CollabswarmDocument U C E K)
    (t : Tree) (epochId : E) : Bool :=
  match t.privateKeyAt t.rootIndex with
  | none => true
  | some sk =>
      decide (p.deriveEpochIdFromRootSecret ⟨sk⟩ ≠ epochId) ||
        decide (d.keychain.current.1 = .ok (p.deriveEpochIdFromRootSecret ⟨sk⟩,
          p.deriveDocumentKeyFromRootSecret ⟨sk⟩))

/-- Whether a private key opens the first path key of a Welcome. -/
def opensFirst (sk : PrivateKey) (w : Welcome) : Bool :=
  match w.pathKeys with
  | [] => true
  | first :: _ =>
      match first.encryptedPrivateKey with
      | .empty => false
      | .box recipient _ => decide (sk.publicKey = recipient)

/-- A Welcome whose tree is not opened or is for our leaf with our root key. -/
def sparedByWelcome (d : CollabswarmDocument U C E K) (sk : PrivateKey)
    (w : Welcome) : Bool :=
  !opensFirst sk w ||
    match d.beekem, w.pathKeys.getLast? with
    | some t, some last =>
        decide (t.myLeafIndex = some w.leafIndex) &&
          match t.getRootSecret with
          | .ok secret => decide (last.publicKey = secret.key.publicKey)
          | .error _ => false
    | _, _ => false

/-- A message whose handling in this state changes nothing of the key state,
provided that its keychain operations are known. -/
def harmless (p : Providers E K) (d : CollabswarmDocument U C E K) :
    KeyMessage U E K → Bool
  | .welcome message =>
      match d.kemKeyPair with
      | none => true
      | some sk =>
          decide (sk.publicKey ≠ message.welcomeRecipientKemPublicKey) ||
            ((decide (d.invitationEpoch = some message.welcomeEpochId) ||
                d.keychain.lastUncontested) &&
              match message.beekemWelcome with
              | none => true
              | some w => d.sparedByWelcome sk w)
  | .pathUpdate message =>
      match d.beekem with
      | none => true
      | some t =>
          t.sparesRoot message.pathUpdate &&
            (t.throwsOn message.pathUpdate ||
              d.settled p t message.pathUpdateEpochId)

/-! ## Handling a harmless message -/

omit [DecidableEq U] [LinearOrder C] [DecidableEq E] [DecidableEq K] in
/-- A Welcome that spares the tree leaves the key state of the tree. -/
theorem bootstrap_spared {d : CollabswarmDocument U C E K} {sk : PrivateKey}
    {w : Welcome} {j : ℕ} (hw : HonestWelcome w j)
    (h : d.sparedByWelcome sk w = true) :
    (d.bootstrap sk (some w)).beekem.map
        (fun t => (t.getRootSecret, t.myLeafIndex)) =
      d.beekem.map fun t => (t.getRootSecret, t.myLeafIndex) := by
  rw [bootstrap]
  rcases hprocess : Tree.new.processWelcome w sk with ⟨t', e | secret⟩
  · rfl
  obtain ⟨hvalid, -, hsecret, last, hlast, hkey⟩ := hw.processed hprocess
  rw [sparedByWelcome, Bool.or_eq_true] at h
  rcases h with hshut | hsame
  · -- the first path key is opened whenever the Welcome is processed
    exfalso
    have hposition : TreeMath.nodeToLeafIndex (2 * j) = some j := by
      simp [TreeMath.nodeToLeafIndex, TreeMath.isLeaf_iff,
        Nat.shiftRight_eq_div_pow]
    rw [opensFirst] at hshut
    rcases hkeys : w.pathKeys with _ | ⟨first, rest⟩
    · rw [hkeys] at hshut
      cases hshut
    rw [hkeys] at hshut
    dsimp only at hshut
    have hfail : decryptNodeKey first.encryptedPrivateKey sk =
        .error .eciesOpen := by
      rcases hsealed : first.encryptedPrivateKey with _ | ⟨recipient, payload⟩
      · rfl
      · rw [hsealed] at hshut
        rw [decryptNodeKey, if_neg (by simpa using hshut)]
    simp only [processWelcome, hw.leafIndex, hposition, hkeys,
      installPathKeys, hfail] at hprocess
    cases hprocess
  · dsimp only
    rw [hlast] at hsame
    rcases hbeekem : d.beekem with _ | t
    · rw [hbeekem] at hsame
      cases hsame
    rw [hbeekem] at hsame
    simp only [Bool.and_eq_true, decide_eq_true_eq] at hsame
    obtain ⟨hleaf, hroot⟩ := hsame
    rcases hold : t.getRootSecret with e | secret'
    · rw [hold] at hroot
      cases hroot
    rw [hold] at hroot
    simp only [decide_eq_true_eq, hkey, PrivateKey.publicKey,
      PublicKey.mk.injEq] at hroot
    have hsecretEq : secret = secret' := by
      rcases secret with ⟨⟨id⟩⟩
      rcases secret' with ⟨⟨id'⟩⟩
      cases hroot
      rfl
    simp only [Option.map_some, hold, hsecret, hleaf, hvalid.myLeafIndex,
      hw.leafIndex, hsecretEq]

omit [DecidableEq U] [LinearOrder C] [DecidableEq E] [DecidableEq K] in
theorem bootstrap_keychain (d : CollabswarmDocument U C E K) (sk : PrivateKey)
    (w : Option Welcome) :
    (d.bootstrap sk w).keychain = d.keychain ∧
      (d.bootstrap sk w).invitationEpoch = d.invitationEpoch := by
  cases w with
  | none => exact ⟨rfl, rfl⟩
  | some w =>
      rw [bootstrap]
      split <;> exact ⟨rfl, rfl⟩

omit [DecidableEq U] [LinearOrder C] in
/-- Recording the invitation epoch does not change the key state, unless it
looks at the keys and another key is cached for the last one. -/
theorem recordInvitationEpoch_keyState {d : CollabswarmDocument U C E K}
    {epochId : E} (h : d.invitationEpoch = some epochId ∨
      d.keychain.lastUncontested = true) :
    (d.recordInvitationEpoch epochId).keyState = d.keyState := by
  rw [recordInvitationEpoch]
  rcases hinvitation : d.invitationEpoch with _ | existing
  · rfl
  have hcurrent : (shouldAdvanceInvitationEpoch d.keychain existing
      epochId).2.current.1 = d.keychain.current.1 := by
    rw [shouldAdvanceInvitationEpoch]
    split
    · rfl
    · rename_i hne
      have huncontested : d.keychain.lastUncontested = true := by
        rcases h with heq | huncontested
        · rw [hinvitation, Option.some.injEq] at heq
          exact absurd heq hne
        · exact huncontested
      dsimp only
      split <;> exact Keychain.current_keys huncontested
  simp only [keyState, hcurrent]

omit [DecidableEq U] [LinearOrder C] in
/-- A harmless Welcome with known keychain operations. -/
theorem applyBeeKEMWelcome_keyState (p : Providers E K)
    {d : CollabswarmDocument U C E K} (hkeychain : d.keychain.WellFormed)
    {message : WelcomeMessage U E K}
    (hknown : ∀ op ∈ message.keychainChanges,
      op.id ∈ d.keychain.doc.all.map CausalOp.id)
    (hhonest : ∀ w ∈ message.beekemWelcome, ∃ j, HonestWelcome w j)
    (h : d.harmless p (.welcome message) = true) :
    (d.applyBeeKEMWelcome message).1.keyState = d.keyState := by
  rw [harmless] at h
  rw [applyBeeKEMWelcome]
  rcases hpair : d.kemKeyPair with _ | sk
  · rfl
  rw [hpair] at h
  simp only [Bool.or_eq_true, Bool.and_eq_true, decide_eq_true_eq] at h
  dsimp only
  split
  · rfl
  rename_i hrecipient
  obtain ⟨huncontested, hspared⟩ := h.resolve_left hrecipient
  have hmerge : ({ d with
      kemKeyPair := some sk
      keychain := d.keychain.merge message.keychainChanges } :
        CollabswarmDocument U C E K) = d := by
    rw [Keychain.merge, hkeychain.doc.receive_known hknown, ← hpair]
  rw [hmerge]
  obtain ⟨hsame, hinvitation⟩ := d.bootstrap_keychain sk message.beekemWelcome
  rw [← hsame, ← hinvitation] at huncontested
  rw [recordInvitationEpoch_keyState huncontested, keyState, keyState, hsame]
  rcases hwelcome : message.beekemWelcome with _ | w
  · rfl
  · rw [hwelcome] at hspared
    obtain ⟨j, hj⟩ := hhonest w hwelcome
    rw [bootstrap_spared hj hspared]

omit [DecidableEq U] [LinearOrder C] in
/-- A harmless path update. -/
theorem handleBeeKEMPathUpdate_keyState (p : Providers E K)
    {d : CollabswarmDocument U C E K} (hkeychain : d.keychain.WellFormed)
    {message : PathUpdateMessage E} {opId : ℕ}
    (hnew : d.keychain.NewNumber opId)
    (h : d.harmless p (.pathUpdate message : KeyMessage U E K) = true) :
    (d.handleBeeKEMPathUpdate p message opId).1.keyState = d.keyState := by
  rw [harmless] at h
  rw [handleBeeKEMPathUpdate]
  rcases hbeekem : d.beekem with _ | t
  · rfl
  rw [hbeekem] at h
  simp only [Bool.and_eq_true, Bool.or_eq_true] at h
  obtain ⟨hspares, hsettled⟩ := h
  dsimp only
  rcases hprocess : t.processPathUpdate message.pathUpdate with ⟨t', result⟩
  obtain ⟨hleaf, hroot, hresult⟩ := processPathUpdate_spared hspares hprocess
  have hstate : ∀ keychain : Keychain E K,
      keychain.current.1 = d.keychain.current.1 →
      ({ d with beekem := some t', keychain } :
        CollabswarmDocument U C E K).keyState = d.keyState := by
    intro keychain hcurrent
    simp only [keyState, hbeekem, Option.map_some, hroot, hleaf, hcurrent]
  rcases result with e | rootSecret
  · exact hstate d.keychain rfl
  rcases hresult with ⟨e, he⟩ | ⟨hthrows, hsecret⟩
  · cases he
  have hkey := getRootSecret_eq_ok hsecret.symm
  replace hsettled := hsettled.resolve_left (by simp [hthrows])
  rw [settled, hkey] at hsettled
  simp only [Bool.or_eq_true, decide_eq_true_eq] at hsettled
  dsimp only
  split
  · rename_i hepoch
    have hcurrent := hsettled.resolve_left (not_not.2 hepoch)
    apply hstate
    rw [hcurrent]
    exact hkeychain.current_addEpochKey p.keychain hnew _ _
  · exact hstate d.keychain rfl

/-! ## Keychains over a run -/

/-- What every method does to the keychain: it stays well formed, and known
operations stay known. -/
structure KeychainGrows (kc kc' : Keychain E K) : Prop where
  wellFormed : kc.WellFormed → kc'.WellFormed
  known : kc.doc.all ⊆ kc'.doc.all

section Grows

omit [DecidableEq E] [DecidableEq K]

theorem KeychainGrows.trans {kc kc' kc'' : Keychain E K}
    (h : KeychainGrows kc kc') (h' : KeychainGrows kc' kc'') :
    KeychainGrows kc kc'' :=
  ⟨fun hwf => h'.wellFormed (h.wellFormed hwf),
    List.Subset.trans h.known h'.known⟩

theorem keychainGrows_cache (kc : Keychain E K) (cache : LRUCache E K) :
    KeychainGrows kc { kc with cache } :=
  ⟨fun h => h.cache cache, List.Subset.refl _⟩

end Grows

omit [DecidableEq K] in
theorem keychainGrows_addEpochKey (kc : Keychain E K) (flavour : Flavour)
    {opId : ℕ} (hnew : kc.NewNumber opId) (epochId : E) (key : K) :
    KeychainGrows kc (kc.addEpochKey flavour opId epochId key).1 := by
  refine ⟨fun h => (h.pushEntry flavour hnew _).cache _, ?_⟩
  intro op hop
  simp only [Keychain.addEpochKey, Keychain.pushEntry, CausalLog.all,
    CausalLog.push, List.mem_append] at hop ⊢
  tauto

theorem keychainGrows_merge (kc : Keychain E K)
    (change : List (PushOp (E × K))) :
    KeychainGrows kc (kc.merge change) :=
  ⟨fun h => h.merge change, (kc.doc.receive_spec change).2.2.1⟩

omit [DecidableEq K] in
theorem keychainGrows_current (kc : Keychain E K) :
    KeychainGrows kc kc.current.2 := by
  obtain ⟨cache, heq⟩ := kc.current_snd
  rw [heq]
  exact keychainGrows_cache kc cache

section Methods

omit [DecidableEq K]

omit [DecidableEq U] in
theorem makeChange_keychain (d : CollabswarmDocument U C E K)
    (kind : NodeKind) (cid : C) :
    ∃ cache, (d.makeChange kind cid).1.keychain =
      { d.keychain with cache } := by
  obtain ⟨cache, ⟨-, e, heq⟩ | heq⟩ := d.makeChange_cases kind cid
  · exact ⟨cache, by rw [heq]⟩
  · exact ⟨cache, by rw [heq]⟩

omit [DecidableEq U] in
theorem makeChange_keychainGrows (d : CollabswarmDocument U C E K)
    (kind : NodeKind) (cid : C) :
    KeychainGrows d.keychain (d.makeChange kind cid).1.keychain := by
  obtain ⟨cache, heq⟩ := d.makeChange_keychain kind cid
  rw [heq]
  exact keychainGrows_cache _ cache

theorem addWriter_keychainGrows (d : CollabswarmDocument U C E K)
    (writer : U) (cid : C) :
    KeychainGrows d.keychain (d.addWriter writer cid).1.keychain := by
  rw [addWriter]
  split
  · exact keychainGrows_cache _ _
  · split
    · exact keychainGrows_cache _ _
    · exact makeChange_keychainGrows { d with
        writers := insert writer d.writers } .writer cid

theorem removeWriter_keychainGrows (p : Providers E K)
    (d : CollabswarmDocument U C E K) (writer : U) (cid : C) {opId : ℕ}
    (hnew : d.keychain.NewNumber opId) (keyId : E) (key : K) :
    KeychainGrows d.keychain
      (d.removeWriter p writer cid opId keyId key).1.keychain := by
  rw [removeWriter]
  split
  · exact keychainGrows_cache _ _
  split
  · exact keychainGrows_cache _ _
  obtain ⟨cache, hcache⟩ := ({ d with writers := d.writers.erase writer } :
    CollabswarmDocument U C E K).makeChange_keychain .writer cid
  split
  · rename_i d' e heq
    rw [heq] at hcache
    rw [hcache]
    exact keychainGrows_cache _ cache
  · rename_i d' heq
    rw [heq] at hcache
    dsimp only at hcache ⊢
    obtain ⟨cache', hcache'⟩ := d'.keychain.current_snd
    rw [hcache', hcache]
    exact (keychainGrows_cache d.keychain cache').trans
      (keychainGrows_addEpochKey { d.keychain with cache := cache' }
        p.keychain hnew keyId key)

theorem openDocument_keychainGrows (p : Providers E K)
    (d : CollabswarmDocument U C E K) (loadedFromPeer allowed : Bool)
    {opId : ℕ} (hnew : d.keychain.NewNumber opId) (keyId : E) (key : K)
    (cid : C) :
    KeychainGrows d.keychain (d.openDocument p loadedFromPeer allowed opId
      keyId key cid).1.keychain := by
  rw [openDocument]
  split
  · exact keychainGrows_cache _ _
  split
  · exact keychainGrows_cache _ _
  have hgrows := (keychainGrows_addEpochKey d.keychain p.keychain hnew keyId
    key).trans (makeChange_keychainGrows { d with
      writers := insert d.user d.writers
      keychain := (d.keychain.add p.keychain opId keyId key).1 } .writer cid)
  split
  · rename_i d' e heq
    rw [heq] at hgrows
    exact hgrows
  · rename_i d' heq
    rw [heq] at hgrows
    exact hgrows

omit [LinearOrder C] [DecidableEq E] in
theorem registerBeeKEMReader_keychain (d : CollabswarmDocument U C E K)
    (reader : U) (key : RawKey) (fresh : ℕ) :
    (d.registerBeeKEMReader reader key fresh).document.keychain =
      d.keychain := by
  have hgate : ∀ d' : CollabswarmDocument U C E K,
      d'.founderGate.1.keychain = d'.keychain := by
    intro d'
    rw [founderGate]
    split
    · rfl
    · split
      · rfl
      · rw [initializeBeeKEMAsFounder]
        split <;> rfl
  have hkeychain := hgate { d with
    readerKemPublicKeys := d.readerKemPublicKeys.set reader key }
  rw [registerBeeKEMReader]
  split
  · rfl
  dsimp only
  split
  · rfl
  split
  · rename_i d' e heq
    rw [heq] at hkeychain
    exact hkeychain
  · rename_i d' beekem heq
    rw [heq] at hkeychain
    split
    · exact hkeychain
    · split <;> exact hkeychain

omit [LinearOrder C] in
theorem welcomeReader_keychainGrows (p : Providers E K)
    (d : CollabswarmDocument U C E K) (reader : U) (key : RawKey)
    (opIds : ℕ → ℕ) (fresh : ℕ) :
    KeychainGrows d.keychain
      (d.welcomeReader p reader key opIds fresh).document.keychain := by
  have hregistered := d.registerBeeKEMReader_keychain reader key fresh
  rw [welcomeReader]
  dsimp only
  split
  · rw [hregistered]
    exact keychainGrows_cache _ _
  · rename_i beekemWelcome _
    rw [sendBeeKEMWelcome, hregistered]
    have hcurrent := keychainGrows_current d.keychain
    split
    · rename_i e keychain heq
      rw [heq] at hcurrent
      exact hcurrent
    · rename_i currentKeyID key' keychain heq
      rw [heq] at hcurrent
      dsimp only
      split <;> exact hcurrent

theorem addReader_keychainGrows (p : Providers E K)
    (d : CollabswarmDocument U C E K) (reader : U) (key : Option RawKey)
    (cid : C) (opIds : ℕ → ℕ) (fresh : ℕ) :
    KeychainGrows d.keychain
      (d.addReader p reader key cid opIds fresh).document.keychain := by
  have hadded : KeychainGrows d.keychain
      (d.addToReaders reader cid).1.keychain := by
    rw [addToReaders]
    split
    · exact keychainGrows_cache _ _
    · exact makeChange_keychainGrows { d with
        readers := insert reader d.readers } .reader cid
  rw [addReader]
  split
  · exact keychainGrows_cache _ _
  split
  · exact keychainGrows_cache _ _
  split
  · exact keychainGrows_cache _ _
  split
  · exact keychainGrows_cache _ _
  split
  · rename_i d' e heq
    rw [heq] at hadded
    exact hadded
  · rename_i d' heq
    rw [heq] at hadded
    split
    · exact hadded
    · exact hadded.trans (welcomeReader_keychainGrows p d' reader _ opIds
        fresh)

theorem removeReader_keychainGrows (p : Providers E K)
    (d : CollabswarmDocument U C E K) (reader : U) (cid : C) {opId : ℕ}
    (hnew : d.keychain.NewNumber opId) (fresh : ℕ) :
    KeychainGrows d.keychain
      (d.removeReader p reader cid opId fresh).document.keychain := by
  rw [removeReader]
  split
  · exact keychainGrows_cache _ _
  split
  · exact keychainGrows_cache _ _
  split
  · exact keychainGrows_cache _ _
  split
  · exact keychainGrows_cache _ _
  rename_i _ beekem _ _ leafIndex _
  dsimp only
  split
  · exact keychainGrows_cache _ _
  · rename_i pathUpdate rootSecret _
    set rotated : CollabswarmDocument U C E K := { d with
      beekem := some (beekem.removeMember leafIndex fresh).tree
      readerLeafIndices := d.readerLeafIndices.set reader leafIndex
      readers := d.readers.erase reader }
    obtain ⟨cache, hcache⟩ := rotated.makeChange_keychain .reader cid
    simp only [installEpochKey, forgetReader, hcache]
    exact (keychainGrows_cache d.keychain cache).trans
      (keychainGrows_addEpochKey { d.keychain with cache } p.keychain hnew _ _)

end Methods

/-- Every method keeps the keychain well formed and its operations known. -/
theorem run_keychainGrows (p : Providers E K)
    (d : CollabswarmDocument U C E K) (localCall : LocalCall U C E K)
    (hnew : d.NumbersNew localCall) :
    KeychainGrows d.keychain (d.run p localCall).keychain := by
  cases localCall with
  | setKemKeyPair keyPair => exact keychainGrows_cache _ _
  | openDocument loadedFromPeer allowed opId keyId key cid =>
      exact d.openDocument_keychainGrows p loadedFromPeer allowed hnew keyId
        key cid
  | sync received => exact keychainGrows_merge _ _
  | change cid =>
      rw [run, change]
      split
      · exact keychainGrows_cache _ _
      · exact d.makeChange_keychainGrows .document cid
  | addWriter writer cid => exact d.addWriter_keychainGrows writer cid
  | removeWriter writer cid opId keyId key =>
      exact d.removeWriter_keychainGrows p writer cid hnew keyId key
  | addReader reader kemKey cid opIds fresh =>
      exact d.addReader_keychainGrows p reader kemKey cid opIds fresh
  | removeReader reader cid opId fresh =>
      exact d.removeReader_keychainGrows p reader cid hnew fresh

omit [DecidableEq U] [LinearOrder C] in
theorem applyBeeKEMWelcome_keychainGrows (d : CollabswarmDocument U C E K)
    (message : WelcomeMessage U E K) :
    KeychainGrows d.keychain (d.applyBeeKEMWelcome message).1.keychain ∧
      ((d.applyBeeKEMWelcome message).2 = true →
        ∀ op ∈ message.keychainChanges, op.id ∈
          (d.applyBeeKEMWelcome message).1.keychain.doc.all.map
            CausalOp.id) := by
  rw [applyBeeKEMWelcome]
  split
  · exact ⟨keychainGrows_cache _ _, fun h => by cases h⟩
  rename_i sk _
  split
  · exact ⟨keychainGrows_cache _ _, fun h => by cases h⟩
  dsimp only
  set merged : CollabswarmDocument U C E K :=
    { d with keychain := d.keychain.merge message.keychainChanges }
  obtain ⟨cache, invitationEpoch, heq⟩ := recordInvitationEpoch_eq
    (merged.bootstrap sk message.beekemWelcome) message.welcomeEpochId
  rw [heq]
  dsimp only
  rw [(merged.bootstrap_keychain sk message.beekemWelcome).1]
  refine ⟨(keychainGrows_merge d.keychain message.keychainChanges).trans
    (keychainGrows_cache _ cache), ?_⟩
  intro _
  exact (d.keychain.doc.receive_spec message.keychainChanges).2.2.2.1

omit [DecidableEq U] [LinearOrder C] [DecidableEq K] in
theorem handleBeeKEMPathUpdate_keychainGrows (p : Providers E K)
    (d : CollabswarmDocument U C E K) (message : PathUpdateMessage E)
    {opId : ℕ} (hnew : d.keychain.NewNumber opId) :
    KeychainGrows d.keychain
      (d.handleBeeKEMPathUpdate p message opId).1.keychain := by
  rw [handleBeeKEMPathUpdate]
  split
  · exact keychainGrows_cache _ _
  split
  · exact keychainGrows_cache _ _
  · dsimp only
    split
    · exact keychainGrows_addEpochKey d.keychain p.keychain hnew _ _
    · exact keychainGrows_cache _ _

end CollabswarmDocument

namespace Member

open CollabswarmDocument

variable {U C E K : Type} [DecidableEq U] [LinearOrder C] [DecidableEq E]
  [DecidableEq K]

/-- One event. -/
def step (p : Providers E K) (m : Member U C E K) :
    MemberEvent U C E K → Member U C E K
  | .deliver message opId =>
      let (document, applied) := m.document.receive p opId message
      ⟨document, if applied then message :: m.accepted else m.accepted⟩
  | .call localCall => { m with document := m.document.run p localCall }

/-- Numbers of keychain operations are new, and Welcomes are as `addMember`
makes them. -/
def Sent (m : Member U C E K) : MemberEvent U C E K → Prop
  | .deliver (.welcome message) _ =>
      ∀ w ∈ message.beekemWelcome, ∃ j, HonestWelcome w j
  | .deliver (.pathUpdate _) opId => m.document.keychain.NewNumber opId
  | .call localCall => m.document.NumbersNew localCall

/-- A message that was accepted before changes nothing when it is delivered
again. -/
def Steady (p : Providers E K) (m : Member U C E K) :
    MemberEvent U C E K → Prop
  | .deliver message opId => message ∈ m.accepted →
      (m.document.receive p opId message).1.keyState = m.document.keyState
  | .call _ => True

instance (p : Providers E K) (m : Member U C E K)
    (event : MemberEvent U C E K) : Decidable (m.Steady p event) :=
  match event with
  | .deliver message _ =>
      inferInstanceAs (Decidable (message ∈ m.accepted → _))
  | .call _ => isTrue trivial

/-- The condition on a replay. -/
def ReplayHarmless (p : Providers E K) (m : Member U C E K) :
    MemberEvent U C E K → Prop
  | .deliver message _ => message ∈ m.accepted →
      m.document.harmless p message = true
  | .call _ => True

/-! ## Runs -/

/-- The keychain is well formed and knows the operations of every Welcome that
was accepted. -/
structure Informed (m : Member U C E K) : Prop where
  wellFormed : m.document.keychain.WellFormed
  known : ∀ message, KeyMessage.welcome message ∈ m.accepted →
    ∀ op ∈ message.keychainChanges,
      op.id ∈ m.document.keychain.doc.all.map CausalOp.id

omit [DecidableEq U] [LinearOrder C] [DecidableEq E] [DecidableEq K] in
theorem Informed.grows {m : Member U C E K} (h : m.Informed)
    {d : CollabswarmDocument U C E K}
    (hgrows : KeychainGrows m.document.keychain d.keychain) :
    (⟨d, m.accepted⟩ : Member U C E K).Informed :=
  ⟨hgrows.wellFormed h.wellFormed, fun message hmem op hop =>
    List.map_subset _ hgrows.known (h.known message hmem op hop)⟩

/-- What a delivery adds to the accepted messages. -/
theorem mem_accepted_deliver (p : Providers E K) {m : Member U C E K}
    {message message' : KeyMessage U E K} {opId : ℕ}
    (h : message' ∈ (m.step p (.deliver message opId)).accepted) :
    message' ∈ m.accepted ∨
      message' = message ∧
        (m.document.receive p opId message).2 = true := by
  have h : message' ∈ if (m.document.receive p opId message).2 then
      message :: m.accepted else m.accepted := h
  by_cases happlied : (m.document.receive p opId message).2 = true
  · rw [if_pos happlied] at h
    rcases List.mem_cons.1 h with heq | hmem
    · exact Or.inr ⟨heq, happlied⟩
    · exact Or.inl hmem
  · rw [if_neg happlied] at h
    exact Or.inl h

theorem Informed.step (p : Providers E K) {m : Member U C E K}
    (h : m.Informed) {event : MemberEvent U C E K} (hsent : m.Sent event) :
    (m.step p event).Informed := by
  cases event with
  | call localCall =>
      exact h.grows (m.document.run_keychainGrows p localCall hsent)
  | deliver message opId =>
      cases message with
      | welcome message =>
          obtain ⟨hgrows, hknown⟩ :=
            m.document.applyBeeKEMWelcome_keychainGrows message
          have hold := h.grows hgrows
          refine ⟨hold.wellFormed, ?_⟩
          intro message' hmem
          rcases mem_accepted_deliver p hmem with hmem | ⟨heq, happlied⟩
          · exact hold.known message' hmem
          · cases heq
            exact hknown happlied
      | pathUpdate message =>
          have hold := h.grows
            (m.document.handleBeeKEMPathUpdate_keychainGrows p message hsent)
          refine ⟨hold.wellFormed, ?_⟩
          intro message' hmem
          rcases mem_accepted_deliver p hmem with hmem | ⟨heq, -⟩
          · exact hold.known message' hmem
          · cases heq

omit [DecidableEq U] [LinearOrder C] in
/-- A harmless replay is steady. -/
theorem Informed.steady (p : Providers E K) {m : Member U C E K}
    (h : m.Informed) {event : MemberEvent U C E K} (hsent : m.Sent event)
    (hharmless : m.ReplayHarmless p event) : m.Steady p event := by
  cases event with
  | call localCall => trivial
  | deliver message opId =>
      intro hmem
      cases message with
      | welcome message =>
          exact applyBeeKEMWelcome_keyState p h.wellFormed
            (h.known message hmem) hsent (hharmless hmem)
      | pathUpdate message =>
          exact handleBeeKEMPathUpdate_keyState p h.wellFormed hsent
            (hharmless hmem)

/-- What a founder sends when it adds readers `1` and `2`, removes `1`, adds it
again, which fails, and removes it again: the Welcome of `2` and the two
revocations. -/
def founderMessages : Option (WelcomeMessage ℕ ℕ ℕ × PathUpdateMessage ℕ ×
    PathUpdateMessage ℕ) :=
  let p := numberedProviders
  let founder := (Swarm.found p 0 ⟨100⟩ 7 7 0 : Swarm ℕ ℕ ℕ ℕ).founder
  let first := founder.addReader p 1 (some (rawKey ⟨50⟩)) 1 (10 + ·) 101
  let second := first.document.addReader p 2 (some (rawKey ⟨51⟩)) 2 (20 + ·)
    first.fresh
  let removed := second.document.removeReader p 1 3 30 second.fresh
  let again := removed.document.addReader p 1 (some (rawKey ⟨50⟩)) 4 (40 + ·)
    removed.fresh
  let removedAgain := again.document.removeReader p 1 5 50 again.fresh
  match second.result, removed.result, removedAgain.result with
  | .ok (some welcome), .ok (some u₁), .ok (some u₂) => some (welcome, u₁, u₂)
  | _, _, _ => none

/-- The Welcome of reader `2`. -/
def sampleWelcome : WelcomeMessage ℕ ℕ ℕ where
  welcomeEpochId := 7
  welcomeRecipient := 2
  welcomeRecipientKemPublicKey := ⟨51⟩
  keychainChanges := [⟨20, [], [], (7, 7)⟩]
  beekemWelcome := some {
    leafIndex := 4
    pathKeys := [⟨3, ⟨103⟩, .box ⟨51⟩ ⟨103⟩⟩]
    treeNodePublicKeys := [⟨0, some ⟨100⟩⟩, ⟨2, some ⟨50⟩⟩, ⟨1, some ⟨102⟩⟩]
    treeHash := [(0, ⟨100⟩), (1, ⟨102⟩), (2, ⟨50⟩), (3, ⟨103⟩), (4, ⟨51⟩)] }

/-- A revocation: new keys `fresh` for the founder's leaf and path, the root
key sealed to reader `2`. -/
def sampleRevocation (fresh : ℕ) : PathUpdateMessage ℕ where
  pathUpdate := ⟨0, ⟨fresh⟩, [⟨1, ⟨fresh + 1⟩, .empty⟩,
    ⟨3, ⟨fresh + 2⟩, .box ⟨51⟩ ⟨fresh + 2⟩⟩]⟩
  pathUpdateEpochId := fresh + 2

theorem sampleWelcome_honest (w : Welcome)
    (hw : w ∈ sampleWelcome.beekemWelcome) : ∃ j, HonestWelcome w j := by
  cases hw
  refine ⟨2, by decide, rfl, by decide, ?_, by decide⟩
  intro pathKey hmem pk sk hbox
  rw [List.mem_singleton.1 hmem] at hbox ⊢
  cases hbox
  rfl

end Member

end Collabswarm.Document
