import Collabswarm.Keychain.Keychain
import Collabswarm.Support.Transition

/-!
# Looking up keys

`getKey`, and with it the decryption of blocks and of load responses, reads the
cache only, while merged keys arrive in the list.  A step of a keychain keeps
every key of the list available to `getKey` exactly if it puts no uncached key
into the list, replaces no cached key and evicts no key of the list.
-/

namespace Collabswarm.Keychain

variable {I K : Type} [DecidableEq I]

/-- The outcome of a decryption: the key id is unknown, or the cipher was run
with the key that was found. -/
inductive Decryption (D : Type) where
  | unknownKey
  | decrypted (content : Option D)
deriving DecidableEq

/-- `_decryptBlock`; load and tip responses are decrypted in the same way. -/
def decryptBlock {D N : Type} (decrypt : D → K → N → Option D)
    (kc : Keychain I K) (blockKeyID : I) (nonce : N) (data : D) :
    Decryption D :=
  match (kc.getKey blockKeyID).1 with
  | some key => .decrypted (decrypt data key nonce)
  | none => .unknownKey

/-- Every key of the list is what `getKey` returns for its id, and blocks under
that id are decrypted with it. -/
def Decryptable (kc : Keychain I K) : Prop :=
  ∀ entry ∈ kc.doc.contents, (kc.getKey entry.1).1 = some entry.2 ∧
    ∀ (D N : Type) (decrypt : D → K → N → Option D) (nonce : N) (data : D),
      kc.decryptBlock decrypt entry.1 nonce data =
        .decrypted (decrypt data entry.2 nonce)

/-- Caching this key replaces and evicts no key of the list. -/
def Cacheable (kc : Keychain I K) (keyId : I) (key : K) : Prop :=
  ∀ entry ∈ kc.doc.contents,
    (entry.1 = keyId → entry.2 = key) ∧
      kc.cache.evicted keyId ≠ some entry.1

/-- The operations that keep every key of the list available. -/
def KeepsDecryptable [DecidableEq K] (kc : Keychain I K) : Operation I K → Prop
  | .add _ keyId key => kc.Cacheable keyId key
  | .addEpochKey _ epochId key => kc.Cacheable epochId key
  | .merge change =>
      ∀ op ∈ (kc.doc.receive change).log, op ∉ kc.doc.log →
        kc.cache.map.get? op.content.1 = some op.content.2
  | .keys => True
  | .current => True
  | .getKey _ => True

/-! ## The cache after each operation -/

theorem decryptable_iff {kc : Keychain I K} :
    kc.Decryptable ↔
      ∀ entry ∈ kc.doc.contents,
        kc.cache.map.get? entry.1 = some entry.2 := by
  constructor
  · intro h entry hentry
    simpa [getKey] using (h entry hentry).1
  · intro h entry hentry
    have hget : (kc.getKey entry.1).1 = some entry.2 := by
      simpa [getKey] using h entry hentry
    exact ⟨hget, fun D N decrypt nonce data => by rw [decryptBlock, hget]⟩

@[simp] theorem get?_touchAll (cache : LRUCache I K) (entries : List (I × K))
    (id : I) : (touchAll cache entries).map.get? id = cache.map.get? id := by
  induction entries generalizing cache with
  | nil => rfl
  | cons entry entries ih =>
      rw [touchAll, List.foldl_cons, ← touchAll, ih, LRUCache.get?_get]

/-- Where all keys of the list are cached, `keys` imports none. -/
theorem keys_cache {kc : Keychain I K} (h : kc.Decryptable) :
    kc.keys.2.cache = touchAll kc.cache kc.doc.contents := by
  rw [decryptable_iff] at h
  have hmissing : (kc.doc.contents.filter fun entry =>
      (kc.cache.map.get? entry.1).isNone) = [] := by
    rw [List.filter_eq_nil_iff]
    intro entry hentry
    simp [h entry hentry]
  simp [keys, hmissing]

theorem keys_doc (kc : Keychain I K) : kc.keys.2.doc = kc.doc := rfl

theorem current_doc (kc : Keychain I K) : kc.current.2.doc = kc.doc := by
  rw [current]
  split
  · rfl
  · split <;> rfl

/-- Where all keys of the list are cached, `current` imports none. -/
theorem get?_current {kc : Keychain I K} (h : kc.Decryptable) (id : I) :
    kc.current.2.cache.map.get? id = kc.cache.map.get? id := by
  rw [decryptable_iff] at h
  rw [current]
  split
  · rfl
  · rename_i entry hlast
    have hcached := h entry (List.mem_of_getLast? hlast)
    split
    · rename_i key cache hget
      have hcache : cache = (kc.cache.get entry.1).2 := by rw [hget]
      simp [hcache]
    · rename_i cache hget
      have hnone := LRUCache.get_fst kc.cache entry.1
      rw [hget, hcached] at hnone
      cases hnone

omit [DecidableEq I] in
theorem mem_contents_pushEntry {flavour : Flavour} {kc : Keychain I K}
    {opId : ℕ} {entry entry' : I × K} :
    entry' ∈ (kc.pushEntry flavour opId entry).doc.contents ↔
      entry' ∈ kc.doc.contents ∨ entry' = entry := by
  simp only [CausalLog.mem_contents, pushEntry, CausalLog.push, entryOp,
    List.mem_append, List.mem_singleton, or_and_right, exists_or,
    exists_eq_left, CausalLog.pushOp, CausalOp.content, eq_comm]

theorem decryptable_addEpochKey {flavour : Flavour} {kc : Keychain I K}
    (h : kc.Decryptable) (opId : ℕ) (epochId : I) (key : K) :
    (kc.addEpochKey flavour opId epochId key).1.Decryptable ↔
      kc.Cacheable epochId key := by
  rw [decryptable_iff] at h ⊢
  constructor
  · intro hafter entry hentry
    have hget := hafter entry (mem_contents_pushEntry.2 (Or.inl hentry))
    simp only [addEpochKey, LRUCache.get?_set] at hget
    constructor
    · intro heq
      rw [if_pos heq] at hget
      exact (Option.some.inj hget).symm
    · intro hevicted
      by_cases heq : entry.1 = epochId
      · have hsome : (kc.cache.map.get? epochId).isSome := by
          rw [← heq, h entry hentry]
          rfl
        simp [LRUCache.evicted, hsome] at hevicted
      · simp [heq, hevicted] at hget
  · intro hcacheable entry hentry
    simp only [addEpochKey, LRUCache.get?_set]
    rcases mem_contents_pushEntry.1 hentry with hold | rfl
    · obtain ⟨hsame, hkept⟩ := hcacheable entry hold
      by_cases heq : entry.1 = epochId
      · rw [if_pos heq, hsame heq]
      · rw [if_neg heq, if_neg hkept]
        exact h entry hold
    · simp

/-! ## The current key after `keys` -/

/-- The cache holds no other key under the id of the last entry. -/
def lastUncontested [DecidableEq K] (kc : Keychain I K) : Bool :=
  match kc.doc.contents.getLast? with
  | none => true
  | some entry =>
      decide ((kc.cache.map.get? entry.1).getD entry.2 = entry.2)

theorem current_fst (kc : Keychain I K) :
    kc.current.1 = match kc.doc.contents.getLast? with
      | none => .error .emptyCurrent
      | some entry =>
          .ok (entry.1, (kc.cache.map.get? entry.1).getD entry.2) := by
  rw [current]
  rcases kc.doc.contents.getLast? with _ | entry
  · rfl
  · have hfst := kc.cache.get_fst entry.1
    dsimp only
    split
    · rename_i key cache hget
      rw [hget] at hfst
      rw [← hfst]
      rfl
    · rename_i cache hget
      rw [hget] at hfst
      rw [← hfst]
      rfl

/-- Caching other keys keeps a cached key or evicts it. -/
theorem getD_foldl_set {id : I} {key : K} :
    ∀ (entries : List (I × K)) (cache : LRUCache I K),
      (∀ entry ∈ entries, entry.1 ≠ id) →
      (cache.map.get? id).getD key = key →
      ((entries.foldl (fun cache entry => cache.set entry.1 entry.2)
        cache).map.get? id).getD key = key := by
  intro entries
  induction entries with
  | nil =>
      intro cache _ h
      exact h
  | cons entry entries ih =>
      intro cache hne h
      rw [List.foldl_cons]
      apply ih _ fun e he => hne e (by simp [he])
      rw [LRUCache.get?_set, if_neg (hne entry (by simp)).symm]
      split
      · rfl
      · exact h

/-- Importing all keys does not change the current one, unless another key is
cached under its id. -/
theorem current_keys [DecidableEq K] {kc : Keychain I K}
    (h : kc.lastUncontested = true) : kc.keys.2.current.1 = kc.current.1 := by
  rw [current_fst, current_fst, keys_doc]
  rw [lastUncontested] at h
  rcases hlast : kc.doc.contents.getLast? with _ | entry
  · rfl
  rw [hlast] at h
  simp only [decide_eq_true_eq] at h
  dsimp only
  rw [h]
  congr 2
  obtain ⟨init, hcontents⟩ := List.getLast?_eq_some_iff.1 hlast
  rw [keys]
  dsimp only
  by_cases hmissing : (kc.cache.map.get? entry.1).isNone
  · -- the last entry is the last one that is imported
    rw [hcontents, List.filter_append, List.filter_singleton, hmissing]
    simp only [cond_true, List.foldl_append, List.foldl_cons, List.foldl_nil,
      LRUCache.get?_set, if_true, Option.getD_some]
  · apply getD_foldl_set
    · intro e he heq
      simp only [List.mem_filter, heq] at he
      exact hmissing he.2
    · rw [get?_touchAll]
      exact h

variable [DecidableEq K]

theorem decryptable_merge {kc : Keychain I K} (h : kc.Decryptable)
    (change : List (PushOp (I × K))) :
    (kc.merge change).Decryptable ↔
      ∀ op ∈ (kc.doc.receive change).log, op ∉ kc.doc.log →
        kc.cache.map.get? op.content.1 = some op.content.2 := by
  rw [decryptable_iff] at h ⊢
  constructor
  · intro hafter op hop _
    exact hafter op.content (CausalLog.mem_contents.2 ⟨op, hop, rfl⟩)
  · intro hnew entry hentry
    obtain ⟨op, hop, rfl⟩ := CausalLog.mem_contents.1 hentry
    by_cases hold : op ∈ kc.doc.log
    · exact h op.content (CausalLog.mem_contents.2 ⟨op, hold, rfl⟩)
    · exact hnew op hop hold

/-- One operation keeps the keys available exactly under its condition. -/
theorem decryptable_step {flavour : Flavour} {kc : Keychain I K}
    (h : kc.Decryptable) (op : Operation I K) :
    (kc.step flavour op).Decryptable ↔ kc.KeepsDecryptable op := by
  cases op with
  | add opId keyId key => exact decryptable_addEpochKey h opId keyId key
  | addEpochKey opId epochId key =>
      exact decryptable_addEpochKey h opId epochId key
  | merge change => exact decryptable_merge h change
  | keys =>
      refine iff_of_true (decryptable_iff.2 ?_) trivial
      intro entry hentry
      rw [step, keys_cache h, get?_touchAll]
      exact decryptable_iff.1 h entry hentry
  | current =>
      refine iff_of_true (decryptable_iff.2 ?_) trivial
      intro entry hentry
      rw [step, current_doc] at hentry
      rw [step, get?_current h]
      exact decryptable_iff.1 h entry hentry
  | getKey keyId =>
      refine iff_of_true (decryptable_iff.2 ?_) trivial
      intro entry hentry
      rw [step, getKey, LRUCache.get?_get]
      exact decryptable_iff.1 h entry hentry

/-! ## Runs -/

omit [DecidableEq K] in
theorem new_decryptable : (new : Keychain I K).Decryptable := by
  intro entry hentry
  cases hentry

/-- In every state of a run of a keychain every key of the list is found by
its id if and only if no operation of the run puts an uncached key into the
list, replaces the cached key of an id of the list or evicts one. -/
theorem decryptable_iff_keepsDecryptable (flavour : Flavour)
    (ops : List (Operation I K)) :
    (∀ k, (exec (step flavour) new (ops.take k)).Decryptable) ↔
      Guarded (step flavour) KeepsDecryptable new ops := by
  have hstep : ∀ (kc : Keychain I K) (op : Operation I K), kc.Decryptable →
      ((kc.step flavour op).Decryptable ↔ kc.KeepsDecryptable op) :=
    fun kc op h => decryptable_step h op
  exact forall_exec_take_iff hstep ops new new_decryptable

/-- A member that merges a key update with one new key does not find it. -/
theorem merged_key_not_decryptable :
    ¬ ∀ (flavour : Flavour) (ops : List (Operation ℕ ℕ)),
      (exec (step flavour) new ops).Decryptable := by
  intro h
  let change := ((new : Keychain ℕ ℕ).add .yjs 5 1 7).2
  have hfound := (h .yjs [.merge change] (1, 7) (by decide)).1
  exact absurd hfound (by decide)

end Collabswarm.Keychain
