import Collabswarm.Crypto.SubtleCrypto
import Collabswarm.Support.Transition

/-!
# Encrypted blocks

A change is stored as the id of a document key, a nonce and the encrypted
change, one after the other.  The peers write and read blocks in any order, each
with its own cache of tag keys.  Between the awaits of a call other calls only
add to its cache what the call would add, so a call is one step.
-/

namespace Collabswarm.Crypto

open Epochs (AesAlgorithmName)

/-- The cipher of a swarm and the length of its key ids. -/
structure BlockFormat (K : Type) where
  crypto : WebCrypto K
  name : AesAlgorithmName
  keyIDLength : ℕ

/-- A written block, with the key and the content it was written for. -/
structure WrittenBlock (K : Type) where
  keyID : Bytes
  key : K
  nonce : Bytes
  data : Bytes
  content : Bytes

/-- The bytes of a block. -/
def WrittenBlock.bytes {K : Type} (w : WrittenBlock K) : Bytes :=
  w.keyID ++ w.nonce ++ w.data

/-- The caches of the peers, and the blocks written so far. -/
structure BlockState (I K : Type) where
  caches : I → HmacKeyCache K
  written : List (WrittenBlock K)

/-- A peer writes a block under the current key of its keychain, or reads one
with the keys it has. -/
inductive BlockEvent (I K : Type) (keyIDLength : ℕ) where
  | put (i : I) (keyID : List.Vector UInt8 keyIDLength) (key : K)
      (content : Bytes) (random : (n : ℕ) → List.Vector UInt8 n)
  | get (i : I) (getKey : Bytes → Option K) (hash : JsString) (block : Bytes)

namespace BlockFormat

variable {I K : Type} [DecidableEq I] [DecidableEq K] (f : BlockFormat K)

omit [DecidableEq K] in
/-- The id of the key of a block. -/
def blockKeyID (block : Bytes) : Bytes := block.take f.keyIDLength

omit [DecidableEq K] in
/-- The nonce of a block. -/
def blockNonce (block : Bytes) : Bytes :=
  (block.drop f.keyIDLength).take (nonceBits f.name)

omit [DecidableEq K] in
/-- The encrypted content of a block. -/
def blockData (block : Bytes) : Bytes :=
  block.drop (f.keyIDLength + nonceBits f.name)

/-- `_getBlock` up to the deserialization, with `_decryptBlock`: a missing key
is reported with the hash, and a rejected decryption is passed on. -/
def getBlock (cache : HmacKeyCache K) (getKey : Bytes → Option K)
    (hash : JsString) (block : Bytes) :
    Except JsString Bytes × HmacKeyCache K :=
  match getKey (f.blockKeyID block) with
  | some key =>
      decrypt f.crypto f.name cache (f.blockData block) key
        (some (f.blockNonce block))
  | none =>
      (.error (JsString.ofString "Failed to decrypt block (CID: " ++ hash ++
        JsString.ofString ")"), cache)

/-- `_putBlock` after the serialization. -/
def putBlock (cache : HmacKeyCache K) (keyID : Bytes) (key : K)
    (content : Bytes) (random : (n : ℕ) → List.Vector UInt8 n) :
    Except JsString (WrittenBlock K) × HmacKeyCache K :=
  match encrypt f.crypto f.name cache random content key with
  | (.ok result, cache) =>
      (.ok ⟨keyID, key, result.nonce, result.data, content⟩, cache)
  | (.error e, cache) => (.error e, cache)

/-- One event. -/
def step (s : BlockState I K) :
    BlockEvent I K f.keyIDLength → BlockState I K
  | .put i keyID key content random =>
      let result := f.putBlock (s.caches i) keyID.toList key content random
      { caches := Function.update s.caches i result.2
        written := match result.1 with
          | .ok w => s.written ++ [w]
          | .error _ => s.written }
  | .get i getKey hash block =>
      { s with
        caches := Function.update s.caches i
          (f.getBlock (s.caches i) getKey hash block).2 }

omit [DecidableEq I] [DecidableEq K] in
/-- Nothing is written yet. -/
def start : BlockState I K := ⟨fun _ _ => none, []⟩

omit [DecidableEq K] in
/-- The nonce and the text that are authenticated under the key were written
under that key. -/
def Unforged (s : BlockState I K) (key : K) (nonce data : Bytes) : Prop :=
  Authenticates f.crypto f.name key nonce data →
    ∃ w ∈ s.written, w.key = key ∧
      w.nonce ++ ciphertextOf f.name w.data =
        nonce ++ ciphertextOf f.name data

omit [DecidableEq K] in
/-- A block as `putBlock` writes it. -/
structure Wellformed (w : WrittenBlock K) : Prop where
  length_keyID : w.keyID.length = f.keyIDLength
  length_nonce : w.nonce.length = nonceBits f.name
  extractable : f.name ≠ .gcm → f.crypto.extractable w.key = true
  authenticates : Authenticates f.crypto f.name w.key w.nonce w.data
  accepts : f.crypto.decrypt (algorithmParams f.name w.nonce) w.key
    (ciphertextOf f.name w.data) = .ok w.content

/-- Every cache is sound and every written block well formed. -/
structure Inv (s : BlockState I K) : Prop where
  sound : ∀ i, SoundCache f.crypto f.name (s.caches i)
  written : ∀ w ∈ s.written, f.Wellformed w

variable {f} {s : BlockState I K}

omit [DecidableEq I] [DecidableEq K] in
theorem inv_start : f.Inv (start : BlockState I K) where
  sound _ := soundCache_empty f.crypto f.name
  written w hw := by cases hw

/-! ## Writing -/

omit [DecidableEq I] in
theorem wellformed_putBlock {cache : HmacKeyCache K}
    (hcache : SoundCache f.crypto f.name cache)
    (keyID : List.Vector UInt8 f.keyIDLength) (key : K) (content : Bytes)
    (random : (n : ℕ) → List.Vector UInt8 n) {w : WrittenBlock K}
    (hw : (f.putBlock cache keyID.toList key content random).1 = .ok w) :
    f.Wellformed w := by
  unfold putBlock at hw
  rcases hresult : encrypt f.crypto f.name cache random content key with
    ⟨e | result, cache'⟩
  · rw [hresult] at hw
    cases hw
  · rw [hresult] at hw
    cases hw
    obtain ⟨ciphertext, hciphertext, hextractable, hnonce, hdata⟩ :=
      hcache.encrypt_eq_ok_iff.1 (congrArg Prod.fst hresult)
    have haccept := f.crypto.decrypt_encrypt hciphertext
    by_cases hgcm : f.name = .gcm
    · rw [if_pos hgcm] at hdata
      refine ⟨keyID.2, ?_, hextractable, ?_, ?_⟩
      · rw [hnonce, length_drawNonce]
      · unfold Authenticates
        rw [if_pos hgcm, hdata, hnonce]
        exact ⟨content, haccept⟩
      · unfold ciphertextOf
        rw [if_pos hgcm, hdata, hnonce]
        exact haccept
    · rw [if_neg hgcm] at hdata
      refine ⟨keyID.2, ?_, hextractable, ?_, ?_⟩
      · rw [hnonce, length_drawNonce]
      · unfold Authenticates
        rw [if_neg hgcm, hdata, hnonce]
        exact ⟨ciphertext, rfl⟩
      · rw [hdata, hnonce, ciphertextOf_append_sign hgcm]
        exact haccept

omit [DecidableEq I] in
theorem sound_putBlock {cache : HmacKeyCache K}
    (hcache : SoundCache f.crypto f.name cache) (keyID : Bytes) (key : K)
    (content : Bytes) (random : (n : ℕ) → List.Vector UInt8 n) :
    SoundCache f.crypto f.name
      (f.putBlock cache keyID key content random).2 := by
  have hsound := hcache.snd_encrypt random content key
  unfold putBlock
  rcases hresult : encrypt f.crypto f.name cache random content key with
    ⟨e | result, cache'⟩ <;> rw [hresult] at hsound <;> exact hsound

omit [DecidableEq I] in
theorem sound_getBlock {cache : HmacKeyCache K}
    (hcache : SoundCache f.crypto f.name cache) (getKey : Bytes → Option K)
    (hash : JsString) (block : Bytes) :
    SoundCache f.crypto f.name (f.getBlock cache getKey hash block).2 := by
  unfold getBlock
  cases getKey (f.blockKeyID block) with
  | none => exact hcache
  | some key => exact hcache.snd_decrypt _ _ _

omit [DecidableEq K] in
theorem sound_update {caches : I → HmacKeyCache K} {i : I}
    {cache : HmacKeyCache K}
    (hcaches : ∀ i, SoundCache f.crypto f.name (caches i))
    (hcache : SoundCache f.crypto f.name cache) (i' : I) :
    SoundCache f.crypto f.name (Function.update caches i cache i') := by
  by_cases hi : i' = i
  · subst hi
    rw [Function.update_self]
    exact hcache
  · rw [Function.update_of_ne hi]
    exact hcaches i'

theorem Inv.step (h : f.Inv s) (e : BlockEvent I K f.keyIDLength) :
    f.Inv (f.step s e) := by
  cases e with
  | get i getKey hash block =>
      exact ⟨sound_update h.sound
        (sound_getBlock (h.sound i) getKey hash block), h.written⟩
  | put i keyID key content random =>
      refine ⟨sound_update h.sound
        (sound_putBlock (h.sound i) keyID.toList key content random), ?_⟩
      intro w hw
      simp only [BlockFormat.step] at hw
      rcases hresult :
          (f.putBlock (s.caches i) keyID.toList key content random).1 with
        e | w'
      · rw [hresult] at hw
        exact h.written w hw
      · rw [hresult] at hw
        rcases List.mem_append.1 hw with hw | hw
        · exact h.written w hw
        · rw [List.mem_singleton] at hw
          subst hw
          exact wellformed_putBlock (h.sound i) keyID key content random
            hresult

/-! ## Reading -/

omit [DecidableEq K] in
/-- A well-formed block is determined by its key and what is authenticated. -/
theorem Wellformed.eq_of_ciphertext {w : WrittenBlock K} (hw : f.Wellformed w)
    {nonce data : Bytes} (hlength : nonce.length = nonceBits f.name)
    (hauth : Authenticates f.crypto f.name w.key nonce data)
    (heq : w.nonce ++ ciphertextOf f.name w.data =
      nonce ++ ciphertextOf f.name data) :
    w.nonce = nonce ∧ w.data = data := by
  obtain ⟨hnonce, htext⟩ :=
    List.append_inj heq (hw.length_nonce.trans hlength.symm)
  refine ⟨hnonce, ?_⟩
  have hwritten := hw.authenticates
  by_cases hgcm : f.name = .gcm
  · unfold ciphertextOf at htext
    rwa [if_pos hgcm, if_pos hgcm] at htext
  · unfold Authenticates at hauth hwritten
    rw [if_neg hgcm] at hauth hwritten
    obtain ⟨ciphertext, rfl⟩ := hauth
    obtain ⟨ciphertext', hdata⟩ := hwritten
    rw [hdata, ciphertextOf_append_sign hgcm,
      ciphertextOf_append_sign hgcm] at htext
    rw [hdata, htext, hnonce]

omit [DecidableEq I] in
theorem getBlock_eq_ok_iff {cache : HmacKeyCache K}
    {getKey : Bytes → Option K} {hash : JsString} {block content : Bytes} :
    (f.getBlock cache getKey hash block).1 = .ok content ↔
      ∃ key, getKey (f.blockKeyID block) = some key ∧
        (decrypt f.crypto f.name cache (f.blockData block) key
          (some (f.blockNonce block))).1 = .ok content := by
  unfold getBlock
  cases getKey (f.blockKeyID block) with
  | none => simp
  | some key => simp

omit [DecidableEq K] in
theorem block_of_drop {w : WrittenBlock K} (hw : f.Wellformed w)
    {block : Bytes} (h : block.drop f.keyIDLength = w.nonce ++ w.data) :
    f.blockNonce block = w.nonce ∧ f.blockData block = w.data := by
  unfold blockNonce blockData
  rw [← List.drop_drop, h, ← hw.length_nonce]
  exact ⟨List.take_left, List.drop_left⟩

omit [DecidableEq K] in
theorem drop_eq_blockNonce_append (block : Bytes) :
    block.drop f.keyIDLength = f.blockNonce block ++ f.blockData block := by
  unfold blockNonce blockData
  rw [← List.drop_drop, List.take_append_drop]

omit [DecidableEq I] in
/-- A peer that has the key reads what was written. -/
theorem Inv.getBlock_of_written (h : f.Inv s) {w : WrittenBlock K}
    (hw : w ∈ s.written) (i : I) {getKey : Bytes → Option K} {hash : JsString}
    {block : Bytes} (hkey : getKey (f.blockKeyID block) = some w.key)
    (hblock : block.drop f.keyIDLength = w.nonce ++ w.data) :
    (f.getBlock (s.caches i) getKey hash block).1 = .ok w.content := by
  have hform := h.written w hw
  obtain ⟨hnonce, hdata⟩ := block_of_drop hform hblock
  refine getBlock_eq_ok_iff.2 ⟨w.key, hkey, ?_⟩
  rw [hnonce, hdata, (h.sound i).decrypt_eq_ok_iff]
  exact ⟨hform.authenticates, hform.extractable, hform.length_nonce,
    hform.accepts⟩

omit [DecidableEq I] in
/-- What is read under a key was written under it, unless it is forged. -/
theorem Inv.written_of_getBlock (h : f.Inv s) {i : I}
    {getKey : Bytes → Option K} {hash : JsString} {block content : Bytes}
    (hunforged : ∀ key, getKey (f.blockKeyID block) = some key →
      f.Unforged s key (f.blockNonce block) (f.blockData block))
    (hread : (f.getBlock (s.caches i) getKey hash block).1 = .ok content) :
    ∃ w ∈ s.written, getKey (f.blockKeyID block) = some w.key ∧
      block.drop f.keyIDLength = w.nonce ++ w.data ∧ w.content = content := by
  obtain ⟨key, hkey, hdecrypt⟩ := getBlock_eq_ok_iff.1 hread
  obtain ⟨hauth, -, hlength, haccept⟩ :=
    (h.sound i).decrypt_eq_ok_iff.1 hdecrypt
  obtain ⟨w, hw, rfl, heq⟩ := hunforged key hkey hauth
  have hform := h.written w hw
  obtain ⟨hnonce, hdata⟩ := hform.eq_of_ciphertext hlength hauth heq
  refine ⟨w, hw, hkey, ?_, ?_⟩
  · rw [drop_eq_blockNonce_append, hnonce, hdata]
  · have haccepted := hform.accepts
    rw [hnonce, hdata, haccept] at haccepted
    cases haccepted
    rfl

/-- In every run of peers that write and read blocks, a peer whose keychain
knows the key of a written block reads its content; and unless somebody else
made the tag, what a peer reads from any bytes at all is the content of a block
that was written under the same key, with the same nonce and data. -/
theorem getBlock_iff_written (f : BlockFormat K)
    (events : List (BlockEvent I K f.keyIDLength)) :
    let s := exec f.step start events
    (∀ w ∈ s.written, ∀ (i : I) (getKey : Bytes → Option K) (hash : JsString),
      getKey w.keyID = some w.key →
        (f.getBlock (s.caches i) getKey hash w.bytes).1 = .ok w.content) ∧
      ∀ (i : I) (getKey : Bytes → Option K) (hash : JsString)
        (block content : Bytes),
        (∀ key, getKey (f.blockKeyID block) = some key →
          f.Unforged s key (f.blockNonce block) (f.blockData block)) →
        ((f.getBlock (s.caches i) getKey hash block).1 = .ok content ↔
          ∃ w ∈ s.written, getKey (f.blockKeyID block) = some w.key ∧
            block.drop f.keyIDLength = w.nonce ++ w.data ∧
            w.content = content) := by
  intro s
  have hinv : f.Inv s :=
    exec_invariant_of_forall (fun s e h => h.step e) events inv_start
  constructor
  · intro w hw i getKey hash hkey
    have hlength := (hinv.written w hw).length_keyID
    apply hinv.getBlock_of_written hw i
    · unfold blockKeyID WrittenBlock.bytes
      rw [List.append_assoc, ← hlength, List.take_left]
      exact hkey
    · unfold WrittenBlock.bytes
      rw [List.append_assoc, ← hlength, List.drop_left]
  · intro i getKey hash block content hunforged
    constructor
    · exact hinv.written_of_getBlock hunforged
    · rintro ⟨w, hw, hkey, hblock, rfl⟩
      exact hinv.getBlock_of_written hw i hkey hblock

/-- A cipher that adds the key to every byte, with a sum as its tag. -/
def shiftCrypto : WebCrypto UInt8 where
  encrypt _ key data := .ok (data.map (· + key))
  decrypt _ key data := .ok (data.map (· - key))
  sign key data := List.replicate 32 (data.foldl (· + ·) key)
  verify key signature data :=
    decide (signature = List.replicate 32 (data.foldl (· + ·) key))
  extractable _ := true
  exportKey key := [key]
  deriveHmacKey ikm _ info := (ikm ++ info).foldl (· + ·) 0
  decrypt_encrypt := by
    rintro params key data _ ⟨⟩
    simp [Function.comp_def]
  verify_iff := by simp
  length_sign := by simp

/-- Blocks under that cipher in the place of AES-CTR. -/
def shiftFormat : BlockFormat UInt8 := ⟨shiftCrypto, .ctr, 1⟩

/-- One peer writes a block and another one reads it. -/
theorem getBlock_iff_written_shift :
    let s := exec shiftFormat.step (start : BlockState Bool UInt8)
      [.put false ⟨[7], rfl⟩ 5 [1, 2] fun n => List.Vector.replicate n 3]
    ∃ w ∈ s.written, w.bytes.length = 51 ∧
      (shiftFormat.getBlock (s.caches true)
        (fun id => if id = [7] then some 5 else none) [] w.bytes).1 =
          .ok [1, 2] := by
  intro s
  have hrun := getBlock_iff_written shiftFormat
    [BlockEvent.put false ⟨[7], rfl⟩ 5 [1, 2]
      fun n => List.Vector.replicate n 3]
  let w : WrittenBlock UInt8 :=
    { keyID := [7], key := 5, content := [1, 2]
      nonce := List.replicate 12 3 ++ List.replicate 4 0
      data := [6, 7] ++ shiftCrypto.sign (hmacKey shiftCrypto .ctr 5)
        (List.replicate 12 3 ++ List.replicate 4 0 ++ [6, 7]) }
  have hw : s.written = [w] := rfl
  refine ⟨w, ?_, by decide, ?_⟩
  · rw [hw]
    exact List.mem_singleton_self w
  · refine (hrun.2 true _ [] w.bytes [1, 2] ?_).2 ⟨w, ?_, rfl, rfl, rfl⟩
    · intro key hkey _
      refine ⟨w, ?_, ?_, rfl⟩
      · exact hw ▸ List.mem_singleton_self w
      · exact Option.some_injective _ hkey
    · exact hw ▸ List.mem_singleton_self w

end BlockFormat

end Collabswarm.Crypto
