import Collabswarm.Keychain.LRUCache
import Collabswarm.Support.PushList
import Collabswarm.Support.Transition

/-!
# Keychains

`YjsKeychain` and `AutomergeKeychain`: a replicated list of pairs of a key id
and a key, and a bounded cache of imported keys.  The two differ in what an
insertion depends on and in what an update contains.  In Yjs it depends on the
client's previous insertion and on the element it follows, and updates include
what is still pending at the sender; in Automerge a change depends on all
changes the sender had applied, and updates contain applied changes only.

The number of a new operation is chosen by the library from random client ids;
here the caller supplies it.  Key ids and keys are arbitrary types.
-/

namespace Collabswarm

/-- The two implementations. -/
inductive Flavour where
  | yjs
  | automerge
deriving DecidableEq, Repr

/-- What the methods throw. -/
inductive KeychainError where
  -- "Can't get an empty keychain's current value"
  | emptyCurrent
  -- "Can't get current key change from an empty keychain"
  | emptyCurrentKeyChange
  -- "Can't get history-since from an empty keychain"
  | emptyHistorySince
deriving DecidableEq, Repr

/-- A keychain: the list document, the last operation of its own client, and
the cache. -/
structure Keychain (I K : Type) where
  doc : PushDoc (I × K)
  lastOwn : Option ℕ
  cache : LRUCache I K

namespace Keychain

variable {I K : Type} [DecidableEq I] [DecidableEq K]

/-- A new keychain. -/
def new : Keychain I K := ⟨.empty, none, LRUCache.new 1000⟩

/-- The operations an insertion at the end depends on. -/
def pushDeps (flavour : Flavour) (kc : Keychain I K) : List ℕ :=
  match flavour with
  | .yjs => kc.lastOwn.toList ++ kc.doc.lastPosition.getLast?.toList
  | .automerge => kc.doc.ids

/-- The insertion of an entry at the end of the list. -/
def entryOp (flavour : Flavour) (kc : Keychain I K) (opId : ℕ)
    (entry : I × K) : PushOp (I × K) :=
  kc.doc.pushOp opId (kc.pushDeps flavour) entry

/-- Push an entry. -/
def pushEntry (flavour : Flavour) (kc : Keychain I K) (opId : ℕ)
    (entry : I × K) : Keychain I K :=
  { kc with
    doc := kc.doc.push (kc.entryOp flavour opId entry)
    lastOwn := some opId }

/-- The update that is returned for an insertion. -/
def delta (flavour : Flavour) (kc : Keychain I K) (op : PushOp (I × K)) :
    List (PushOp (I × K)) :=
  match flavour with
  | .yjs => op :: kc.doc.pending
  | .automerge => [op]

/-- `addEpochKey`. -/
def addEpochKey (flavour : Flavour) (kc : Keychain I K) (opId : ℕ)
    (epochId : I) (key : K) : Keychain I K × List (PushOp (I × K)) :=
  ({ kc.pushEntry flavour opId (epochId, key) with
      cache := kc.cache.set epochId key },
    kc.delta flavour (kc.entryOp flavour opId (epochId, key)))

/-- `add`, with the generated id and key. -/
def add (flavour : Flavour) (kc : Keychain I K) (opId : ℕ) (keyId : I)
    (key : K) : Keychain I K × List (PushOp (I × K)) :=
  kc.addEpochKey flavour opId keyId key

/-- `history`. -/
def history (flavour : Flavour) (kc : Keychain I K) :
    List (PushOp (I × K)) :=
  match flavour with
  | .yjs => kc.doc.all
  | .automerge => kc.doc.log

/-- `merge`. -/
def merge (kc : Keychain I K) (change : List (PushOp (I × K))) :
    Keychain I K :=
  { kc with doc := kc.doc.receive change }

/-- Import an entry: the cached key of its id, else its own key. -/
def importEntry (cache : LRUCache I K) (entry : I × K) : I × K :=
  (entry.1, (cache.map.get? entry.1).getD entry.2)

/-- The cache after all entries were looked up. -/
def touchAll (cache : LRUCache I K) (entries : List (I × K)) :
    LRUCache I K :=
  entries.foldl (fun cache entry => (cache.get entry.1).2) cache

/-- `keys`: every entry is looked up first, then the missing ones are imported
and cached. -/
def keys (kc : Keychain I K) : List (I × K) × Keychain I K :=
  let entries := kc.doc.contents
  let missing := entries.filter fun entry =>
    (kc.cache.map.get? entry.1).isNone
  (entries.map (importEntry kc.cache), { kc with
    cache := missing.foldl (fun cache entry => cache.set entry.1 entry.2)
      (touchAll kc.cache entries) })

/-- `current`. -/
def current (kc : Keychain I K) :
    Except KeychainError (I × K) × Keychain I K :=
  match kc.doc.contents.getLast? with
  | none => (.error .emptyCurrent, kc)
  | some entry =>
      match kc.cache.get entry.1 with
      | (some key, cache) => (.ok (entry.1, key), { kc with cache })
      | (none, cache) => (.ok entry, { kc with
          cache := cache.set entry.1 entry.2 })

/-- Copy entries into a new document, whose operations are numbered by
`opIds`. -/
def slice (flavour : Flavour) (opIds : ℕ → ℕ) (entries : List (I × K)) :
    Keychain I K :=
  entries.zipIdx.foldl
    (fun kc e => kc.pushEntry flavour (opIds e.2) e.1) new

/-- `currentKeyChange`. -/
def currentKeyChange (flavour : Flavour) (kc : Keychain I K)
    (opIds : ℕ → ℕ) : Except KeychainError (List (PushOp (I × K))) :=
  match kc.doc.contents.getLast? with
  | none => .error .emptyCurrentKeyChange
  | some entry => .ok ((slice flavour opIds [entry]).history flavour)

/-- `historySince`: the entries from the first one with this id on, in a new
document, or the full history if no entry has it. -/
def historySince (flavour : Flavour) (kc : Keychain I K) (keyId : I)
    (opIds : ℕ → ℕ) : Except KeychainError (List (PushOp (I × K))) :=
  match kc.doc.contents with
  | [] => .error .emptyHistorySince
  | entries =>
      match entries.dropWhile (fun entry => entry.1 ≠ keyId) with
      | [] => .ok (kc.history flavour)
      | tail => .ok ((slice flavour opIds tail).history flavour)

/-- `getKey`: a lookup in the cache only. -/
def getKey (kc : Keychain I K) (keyId : I) : Option K × Keychain I K :=
  ((kc.cache.get keyId).1, { kc with cache := (kc.cache.get keyId).2 })

/-! ## Calls -/

/-- A call that adds a key. -/
inductive Addition (I K : Type) where
  | add (opId : ℕ) (keyId : I) (key : K)
  | addEpochKey (opId : ℕ) (epochId : I) (key : K)
deriving DecidableEq

namespace Addition

/-- The number of the new operation. -/
def opId : Addition I K → ℕ
  | .add opId _ _ => opId
  | .addEpochKey opId _ _ => opId

/-- The key that is added. -/
def entry : Addition I K → I × K
  | .add _ keyId key => (keyId, key)
  | .addEpochKey _ epochId key => (epochId, key)

/-- The keychain after the call and the change it returns. -/
def run (flavour : Flavour) (kc : Keychain I K) : Addition I K →
    Keychain I K × List (PushOp (I × K))
  | .add opId keyId key => kc.add flavour opId keyId key
  | .addEpochKey opId epochId key => kc.addEpochKey flavour opId epochId key

end Addition

/-- The operations a document performs on its keychain. -/
inductive Operation (I K : Type) where
  | add (opId : ℕ) (keyId : I) (key : K)
  | addEpochKey (opId : ℕ) (epochId : I) (key : K)
  | merge (change : List (PushOp (I × K)))
  | keys
  | current
  | getKey (keyId : I)
deriving DecidableEq

/-- The keychain after an operation. -/
def step (flavour : Flavour) (kc : Keychain I K) : Operation I K →
    Keychain I K
  | .add opId keyId key => (kc.add flavour opId keyId key).1
  | .addEpochKey opId epochId key =>
      (kc.addEpochKey flavour opId epochId key).1
  | .merge change => kc.merge change
  | .keys => kc.keys.2
  | .current => kc.current.2
  | .getKey keyId => (kc.getKey keyId).2

omit [DecidableEq K] in
/-- What a call does to the list, and what it returns. -/
theorem Addition.run_spec (flavour : Flavour) (kc : Keychain I K)
    (a : Addition I K) :
    (∃ cache, (a.run flavour kc).1 =
        { kc.pushEntry flavour a.opId a.entry with cache }) ∧
      ∀ op ∈ (a.run flavour kc).2,
        op = kc.entryOp flavour a.opId a.entry ∨ op ∈ kc.doc.pending := by
  have hdelta : ∀ op, ∀ op' ∈ kc.delta flavour op,
      op' = op ∨ op' ∈ kc.doc.pending := by
    intro op op' hop'
    cases flavour with
    | yjs => exact List.mem_cons.1 hop'
    | automerge => exact Or.inl (List.mem_singleton.1 hop')
  cases a with
  | add opId keyId key => exact ⟨⟨_, rfl⟩, hdelta _⟩
  | addEpochKey opId epochId key => exact ⟨⟨_, rfl⟩, hdelta _⟩

omit [DecidableEq K] in
theorem Addition.entryOp_mem_run (flavour : Flavour) (kc : Keychain I K)
    (a : Addition I K) :
    kc.entryOp flavour a.opId a.entry ∈ (a.run flavour kc).2 := by
  have hdelta : ∀ op, op ∈ kc.delta flavour op := by
    intro op
    cases flavour <;> simp [delta]
  cases a <;> exact hdelta _

/-! ## Well-formed keychains -/

/-- The list is well formed and our own last operation is applied. -/
structure WellFormed (kc : Keychain I K) : Prop where
  doc : kc.doc.WellFormed
  own : ∀ opId ∈ kc.lastOwn, opId ∈ kc.doc.ids

/-- A number that no operation has or depends on. -/
def NewNumber (kc : Keychain I K) (opId : ℕ) : Prop :=
  ∀ op ∈ kc.doc.all, opId ≠ op.id ∧ opId ∉ op.deps

/-- The library gives new operations new numbers. -/
def NumbersNew (kc : Keychain I K) : Operation I K → Prop
  | .add opId _ _ => kc.NewNumber opId
  | .addEpochKey opId _ _ => kc.NewNumber opId
  | _ => True

section WellFormed

omit [DecidableEq I] [DecidableEq K]

theorem new_wellFormed : (new : Keychain I K).WellFormed :=
  ⟨CausalLog.empty_wellFormed, by simp [new]⟩

theorem NewNumber.not_mem_ids {kc : Keychain I K} {opId : ℕ}
    (h : kc.NewNumber opId) : opId ∉ kc.doc.ids := by
  intro hmem
  obtain ⟨op, hop, rfl⟩ := List.mem_map.1 hmem
  exact (h op (List.mem_append_left _ hop)).1 rfl

/-- An insertion depends on applied operations. -/
theorem WellFormed.pushDeps_subset {kc : Keychain I K} (h : kc.WellFormed)
    (flavour : Flavour) : kc.pushDeps flavour ⊆ kc.doc.ids := by
  cases flavour with
  | automerge => exact List.Subset.refl _
  | yjs =>
      intro x hx
      rw [pushDeps, CausalLog.getLast?_lastPosition] at hx
      rcases List.mem_append.1 hx with hown | hlast
      · exact h.own x (by simpa using hown)
      · obtain ⟨op, hop, rfl⟩ : ∃ op, kc.doc.visible.getLast? = some op ∧
            op.id = x := by simpa using hlast
        exact List.mem_map_of_mem
          (CausalLog.mem_visible.1 (List.mem_of_getLast? hop))

/-- In a list that is not empty an insertion depends on something. -/
theorem exists_mem_pushDeps {kc : Keychain I K} (flavour : Flavour)
    (hne : kc.doc.contents ≠ []) :
    ∃ x ∈ kc.pushDeps flavour, x ∈ kc.doc.ids := by
  have hvisible : kc.doc.visible ≠ [] := by
    intro hnil
    exact hne (by rw [CausalLog.contents, hnil, List.map_nil])
  obtain ⟨op, hop⟩ := Option.isSome_iff_exists.1
    (List.getLast?_isSome.2 hvisible)
  have hmem : op.id ∈ kc.doc.ids := List.mem_map_of_mem
    (CausalLog.mem_visible.1 (List.mem_of_getLast? hop))
  refine ⟨op.id, ?_, hmem⟩
  cases flavour with
  | automerge => exact hmem
  | yjs =>
      rw [pushDeps, CausalLog.getLast?_lastPosition, hop]
      simp

theorem WellFormed.pushEntry {kc : Keychain I K} (h : kc.WellFormed)
    (flavour : Flavour) {opId : ℕ} (hnew : kc.NewNumber opId)
    (entry : I × K) : (kc.pushEntry flavour opId entry).WellFormed where
  doc := by
    refine h.doc.push ?_ (h.pushDeps_subset flavour) ?_
    · intro hmem
      obtain ⟨op, hop, heq⟩ := List.mem_map.1 hmem
      exact (hnew op hop).1 heq.symm
    · exact fun op hop => (hnew op (List.mem_append_right _ hop)).2
  own := by
    intro x hx
    have heq : opId = x := by simpa [Keychain.pushEntry] using hx
    simp [Keychain.pushEntry, CausalLog.push, CausalLog.ids, entryOp,
      CausalLog.pushOp, heq]

theorem WellFormed.contents_pushEntry {kc : Keychain I K}
    (h : kc.WellFormed) (flavour : Flavour) {opId : ℕ}
    (hnew : kc.NewNumber opId) (entry : I × K) :
    (kc.pushEntry flavour opId entry).doc.contents =
      kc.doc.contents ++ [entry] :=
  CausalLog.contents_push h.doc.nodup_log hnew.not_mem_ids _ entry

end WellFormed

omit [DecidableEq I] [DecidableEq K] in
theorem WellFormed.cache {kc : Keychain I K} (h : kc.WellFormed)
    (cache : LRUCache I K) : ({ kc with cache } : Keychain I K).WellFormed :=
  ⟨h.doc, h.own⟩

theorem WellFormed.merge {kc : Keychain I K} (h : kc.WellFormed)
    (change : List (PushOp (I × K))) : (kc.merge change).WellFormed := by
  obtain ⟨⟨applied, hlog⟩, -, -, -, hwf⟩ := kc.doc.receive_spec change
  refine ⟨hwf h.doc, ?_⟩
  intro x hx
  have hmem := h.own x hx
  simp only [Keychain.merge, CausalLog.ids, hlog, List.map_append,
    List.mem_append]
  exact Or.inl hmem

theorem WellFormed.step {kc : Keychain I K} (h : kc.WellFormed)
    (flavour : Flavour) (op : Operation I K) (hnew : kc.NumbersNew op) :
    (kc.step flavour op).WellFormed := by
  cases op with
  | add opId keyId key => exact (h.pushEntry flavour hnew _).cache _
  | addEpochKey opId epochId key =>
      exact (h.pushEntry flavour hnew _).cache _
  | merge change => exact h.merge change
  | keys => exact h.cache _
  | current =>
      rw [Keychain.step, current]
      split
      · exact h
      · split <;> exact h.cache _
  | getKey keyId => exact h.cache _

/-- Every keychain that a document can reach is well formed. -/
theorem wellFormed_exec (flavour : Flavour) (ops : List (Operation I K))
    (hnumbers : Guarded (step flavour) NumbersNew new ops) :
    (exec (step flavour) new ops : Keychain I K).WellFormed :=
  exec_invariant (fun _ op h hnew => h.step flavour op hnew) ops new
    new_wellFormed hnumbers

end Keychain

end Collabswarm
