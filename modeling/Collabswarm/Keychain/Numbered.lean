import Collabswarm.Keychain.Keychain

/-!
# Keychains whose operations are counted

In a run of several replicas the numbers of new operations come from one
counter.  A keychain whose operations lie below the counter accepts the next
number, and a key that is added becomes the current one.
-/

namespace Collabswarm.Keychain

variable {I K : Type} [DecidableEq I]

/-- `current` changes the cache only. -/
theorem current_snd (kc : Keychain I K) :
    ∃ cache, kc.current.2 = { kc with cache } := by
  rw [current]
  split
  · exact ⟨kc.cache, rfl⟩
  · split <;> exact ⟨_, rfl⟩

/-- The key that was added last is the current one. -/
theorem WellFormed.current_addEpochKey {kc : Keychain I K}
    (h : kc.WellFormed) (flavour : Flavour) {opId : ℕ}
    (hnew : kc.NewNumber opId) (epochId : I) (key : K) :
    (kc.addEpochKey flavour opId epochId key).1.current.1 =
      .ok (epochId, key) := by
  have hcontents : (kc.addEpochKey flavour opId epochId key).1.doc.contents =
      kc.doc.contents ++ [(epochId, key)] :=
    h.contents_pushEntry flavour hnew (epochId, key)
  have hcache : ((kc.addEpochKey flavour opId epochId key).1.cache.get
      epochId).1 = some key := by
    rw [LRUCache.get_fst]
    exact (LRUCache.get?_set kc.cache epochId epochId key).trans (if_pos rfl)
  rw [current, hcontents, List.getLast?_concat]
  dsimp only
  split
  · rename_i key' cache hget
    rw [hget, Option.some.injEq] at hcache
    rw [hcache]
  · rfl

/-- The operation and what it depends on are numbered below `n`. -/
def OpBelow (n : ℕ) (op : PushOp (I × K)) : Prop :=
  op.id < n ∧ ∀ x ∈ op.deps, x < n

/-- A well-formed keychain whose operations are numbered below `n`. -/
structure Numbered (kc : Keychain I K) (n : ℕ) : Prop where
  wellFormed : kc.WellFormed
  below : ∀ op ∈ kc.doc.all, OpBelow n op

section Numbered

omit [DecidableEq I]

theorem OpBelow.mono {n m : ℕ} (hnm : n ≤ m) {op : PushOp (I × K)}
    (h : OpBelow n op) : OpBelow m op :=
  ⟨h.1.trans_le hnm, fun x hx => (h.2 x hx).trans_le hnm⟩

theorem new_numbered (n : ℕ) : (new : Keychain I K).Numbered n :=
  ⟨new_wellFormed, by simp [new, CausalLog.all, CausalLog.empty]⟩

theorem Numbered.mono {kc : Keychain I K} {n m : ℕ} (h : kc.Numbered n)
    (hnm : n ≤ m) : kc.Numbered m :=
  ⟨h.wellFormed, fun op hop => (h.below op hop).mono hnm⟩

theorem Numbered.cache {kc : Keychain I K} {n : ℕ} (h : kc.Numbered n)
    (cache : LRUCache I K) : ({ kc with cache } : Keychain I K).Numbered n :=
  ⟨h.wellFormed.cache cache, h.below⟩

theorem Numbered.newNumber {kc : Keychain I K} {n opId : ℕ}
    (h : kc.Numbered n) (hopId : n ≤ opId) : kc.NewNumber opId := by
  intro op hop
  obtain ⟨hid, hdeps⟩ := h.below op hop
  refine ⟨by omega, ?_⟩
  intro hmem
  have := hdeps opId hmem
  omega

theorem Numbered.pushEntry {kc : Keychain I K} {n opId : ℕ}
    (h : kc.Numbered n) (flavour : Flavour) (hopId : n ≤ opId)
    (entry : I × K) :
    (kc.pushEntry flavour opId entry).Numbered (opId + 1) := by
  refine ⟨h.wellFormed.pushEntry flavour (h.newNumber hopId) entry, ?_⟩
  intro op hop
  have hcases : op ∈ kc.doc.all ∨ op = kc.entryOp flavour opId entry := by
    simp only [Keychain.pushEntry, CausalLog.all, CausalLog.push,
      List.mem_append, List.mem_singleton] at hop ⊢
    tauto
  rcases hcases with hold | rfl
  · exact (h.below op hold).mono (by omega)
  · refine ⟨Nat.lt_succ_self opId, ?_⟩
    intro x hx
    obtain ⟨op', hop', rfl⟩ :=
      List.mem_map.1 (h.wellFormed.pushDeps_subset flavour hx)
    have := (h.below op' (List.mem_append_left _ hop')).1
    omega

theorem Numbered.history {kc : Keychain I K} {n : ℕ} (h : kc.Numbered n)
    (flavour : Flavour) : ∀ op ∈ kc.history flavour, OpBelow n op := by
  intro op hop
  cases flavour with
  | yjs => exact h.below op hop
  | automerge => exact h.below op (List.mem_append_left _ hop)

/-- The slice with the current key has one operation, with the first of the
new numbers. -/
theorem currentKeyChange_below {kc : Keychain I K} {flavour : Flavour}
    {opIds : ℕ → ℕ} {change : List (PushOp (I × K))}
    (h : kc.currentKeyChange flavour opIds = .ok change) :
    ∀ op ∈ change, OpBelow (opIds 0 + 1) op := by
  rw [currentKeyChange] at h
  split at h
  · cases h
  · cases h
    exact ((new_numbered 0).pushEntry flavour (Nat.zero_le _) _).history
      flavour

end Numbered

theorem Numbered.addEpochKey {kc : Keychain I K} {n opId : ℕ}
    (h : kc.Numbered n) (flavour : Flavour) (hopId : n ≤ opId) (epochId : I)
    (key : K) :
    (kc.addEpochKey flavour opId epochId key).1.Numbered (opId + 1) :=
  (h.pushEntry flavour hopId (epochId, key)).cache _

theorem Numbered.current {kc : Keychain I K} {n : ℕ} (h : kc.Numbered n) :
    kc.current.2.Numbered n := by
  obtain ⟨cache, heq⟩ := kc.current_snd
  rw [heq]
  exact h.cache cache

variable [DecidableEq K]

theorem Numbered.merge {kc : Keychain I K} {n : ℕ} (h : kc.Numbered n)
    {change : List (PushOp (I × K))} (hchange : ∀ op ∈ change, OpBelow n op) :
    (kc.merge change).Numbered n := by
  refine ⟨h.wellFormed.merge change, ?_⟩
  intro op hop
  rcases (kc.doc.receive_spec change).2.1 op hop with hold | hnew
  · exact h.below op hold
  · exact hchange op hnew

end Collabswarm.Keychain
