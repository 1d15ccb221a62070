import Collabswarm.Keychain.Lookup
import Collabswarm.Keychain.Numbered
import Collabswarm.Support.Greedy

/-!
# Key updates

`removeWriter` rotates the document key and sends the new key to the members,
encrypted with the previous one.  A member decrypts an update through `getKey`,
which reads the cache only, and merges the key into the list; it is cached when
`current` or `keys` imports it.

The handler of an update and the lookups wait in the middle, so a reader keeps
the changes and the imports that are under way.
-/

namespace Collabswarm.Keychain

variable {I K N D S : Type} [DecidableEq I] [DecidableEq K]

/-- The fields of a sync message that a key update uses. -/
structure KeyUpdateMessage (I K S : Type) where
  documentId : String
  keychainChanges : Option (List (PushOp (I × K)))
  signature : Option S

/-- A key update behind the header with the document path. -/
structure KeyUpdate (I N D : Type) where
  keyID : I
  nonce : N
  data : D

/-- The document a key update is about, and what it gets from its
serializer and its providers. -/
structure UpdateContext (I K N D S : Type) where
  flavour : Flavour
  documentPath : String
  signingEnabled : Bool
  serializeSyncMessage : KeyUpdateMessage I K S → D
  deserializeSyncMessage : D → Option (KeyUpdateMessage I K S)
  encrypt : D → K → N → D
  decrypt : D → K → N → Option D
  sign : D → S
  verifyWriterSignature : D → S → Bool

namespace UpdateContext

/-- What the writer made is read, decrypted and verified by the reader. -/
structure Lawful (c : UpdateContext I K N D S) : Prop where
  deserialize : ∀ message,
    c.deserializeSyncMessage (c.serializeSyncMessage message) = some message
  decrypt : ∀ data key nonce,
    c.decrypt (c.encrypt data key nonce) key nonce = some data
  verify : ∀ raw, c.verifyWriterSignature raw (c.sign raw) = true

/-! ## The writer -/

/-- `_signAsWriter`; the empty signature counts as none. -/
def signAsWriter (c : UpdateContext I K N D S)
    (message : KeyUpdateMessage I K S) : Option S :=
  if c.signingEnabled then
    some (c.sign (c.serializeSyncMessage { message with signature := none }))
  else none

/-- `_distributeKeyUpdate`: the update that is sent to all peers. -/
def distributeKeyUpdate (c : UpdateContext I K N D S)
    (keychainChanges : List (PushOp (I × K))) (previousKey : I × K)
    (nonce : N) : KeyUpdate I N D :=
  let keyUpdateMessage : KeyUpdateMessage I K S :=
    ⟨c.documentPath, some keychainChanges, none⟩
  let serialized := c.serializeSyncMessage
    { keyUpdateMessage with signature := c.signAsWriter keyUpdateMessage }
  ⟨previousKey.1, nonce, c.encrypt serialized previousKey.2 nonce⟩

end UpdateContext

/-- The random values of a rotation: the number of the new operation, the new
key and its id, and the nonce of the update. -/
structure Rotation (I K N : Type) where
  opId : ℕ
  keyId : I
  key : K
  nonce : N

/-- The new entry of a rotation. -/
def Rotation.entry (r : Rotation I K N) : I × K := (r.keyId, r.key)

namespace UpdateContext

/-- The end of `removeWriter`: the current key is kept as the previous one, the
key is rotated and the update is sent. -/
def rotate (c : UpdateContext I K N D S) (kc : Keychain I K)
    (r : Rotation I K N) :
    Keychain I K × Except KeychainError (KeyUpdate I N D) :=
  match kc.current with
  | (.error e, kc) => (kc, .error e)
  | (.ok previousKey, kc) =>
      let (kc, keychainChanges) := kc.add c.flavour r.opId r.keyId r.key
      (kc, .ok (c.distributeKeyUpdate keychainChanges previousKey r.nonce))

/-- The writer's keychain after a rotation. -/
def rotated (c : UpdateContext I K N D S) (kc : Keychain I K)
    (r : Rotation I K N) : Keychain I K := (c.rotate kc r).1

/-- The updates of rotations one after the other. -/
def updates (c : UpdateContext I K N D S) :
    Keychain I K → List (Rotation I K N) →
      List (Except KeychainError (KeyUpdate I N D))
  | _, [] => []
  | kc, r :: rotations =>
      (c.rotate kc r).2 :: c.updates (c.rotated kc r) rotations

/-! ## The reader -/

/-- `handleKeyUpdateRequestData` before the merge: the changes of an update
that is decrypted and accepted. -/
def acceptedChanges (c : UpdateContext I K N D S) (kc : Keychain I K)
    (update : KeyUpdate I N D) : Option (List (PushOp (I × K))) :=
  match kc.decryptBlock c.decrypt update.keyID update.nonce update.data with
  | .unknownKey => none
  | .decrypted none => none
  | .decrypted (some rawContent) =>
      match c.deserializeSyncMessage rawContent with
      | none => none
      | some message =>
          if message.documentId ≠ "" ∧ message.documentId ≠ c.documentPath then
            none
          else if c.signingEnabled then
            match message.signature with
            | none => none
            | some signature =>
                if c.verifyWriterSignature (c.serializeSyncMessage
                    { message with signature := none }) signature then
                  message.keychainChanges
                else none
          else message.keychainChanges

end UpdateContext

/-- A reader: its keychain, the accepted changes that are not merged yet, with
the number of their update, and the keys that are being imported. -/
structure Reader (I K : Type) where
  keychain : Keychain I K
  accepted : List (ℕ × List (PushOp (I × K)))
  importing : List (I × K)

/-- What a reader does: an update arrives, accepted changes are merged,
`current` or `keys` is called, an import is done. -/
inductive ReaderEvent (I : Type) where
  | receive (n : ℕ)
  | merge (n : ℕ)
  | current
  | keys
  | imported (keyId : I)
deriving DecidableEq

/-- `current` until it waits: the last entry is looked up, and imported if it
is missing. -/
def startCurrent (kc : Keychain I K) : Keychain I K × List (I × K) :=
  match kc.doc.contents.getLast? with
  | none => (kc, [])
  | some entry =>
      ({ kc with cache := (kc.cache.get entry.1).2 },
        if (kc.cache.get entry.1).1.isNone then [entry] else [])

/-- `keys` until it waits: every entry is looked up, and imported if it is
missing. -/
def startKeys (kc : Keychain I K) : Keychain I K × List (I × K) :=
  ({ kc with cache := touchAll kc.cache kc.doc.contents },
    kc.doc.contents.filter fun entry => (kc.cache.map.get? entry.1).isNone)

/-- An imported key is cached. -/
def cacheImported (kc : Keychain I K) (entry : I × K) : Keychain I K :=
  { kc with cache := kc.cache.set entry.1 entry.2 }

namespace Reader

/-- A call that looks up entries. -/
def look (s : Reader I K) (start : Keychain I K × List (I × K)) :
    Reader I K :=
  { s with keychain := start.1, importing := s.importing ++ start.2 }

/-- The reader after an event; `updates` are the updates that were sent. -/
def step (c : UpdateContext I K N D S)
    (updates : List (Except KeychainError (KeyUpdate I N D)))
    (s : Reader I K) : ReaderEvent I → Reader I K
  | .receive n =>
      match updates[n]? with
      | some (.ok update) =>
          { s with
            keychain := (s.keychain.getKey update.keyID).2
            accepted := s.accepted ++
              ((c.acceptedChanges s.keychain update).map (n, ·)).toList }
      | _ => s
  | .merge n =>
      match s.accepted.find? (·.1 = n) with
      | some changes =>
          { s with
            keychain := s.keychain.merge changes.2
            accepted := s.accepted.eraseP (·.1 = n) }
      | none => s
  | .current => s.look (startCurrent s.keychain)
  | .keys => s.look (startKeys s.keychain)
  | .imported keyId =>
      match s.importing.find? (·.1 = keyId) with
      | some entry =>
          { s with
            keychain := cacheImported s.keychain entry
            importing := s.importing.eraseP (·.1 = keyId) }
      | none => s

end Reader

/-! ## Lookups with and without a wait -/

omit [DecidableEq K] in
/-- `current` is its start and the imports it waits for. -/
theorem current_eq_start (kc : Keychain I K) :
    kc.current.2 =
      (startCurrent kc).2.foldl cacheImported (startCurrent kc).1 := by
  rw [current, startCurrent]
  cases kc.doc.contents.getLast? with
  | none => rfl
  | some entry =>
      dsimp only
      split
      · rename_i key cache hget
        rw [hget]
        rfl
      · rename_i cache hget
        rw [hget]
        rfl

omit [DecidableEq K] in
theorem keys_eq_start (kc : Keychain I K) :
    kc.keys.2 = (startKeys kc).2.foldl cacheImported (startKeys kc).1 := by
  have hfold : ∀ (entries : List (I × K)) (kc : Keychain I K),
      entries.foldl cacheImported kc = { kc with
        cache := entries.foldl (fun cache entry => cache.set entry.1 entry.2)
          kc.cache } := by
    intro entries
    induction entries with
    | nil => exact fun _ => rfl
    | cons entry entries ih => exact fun kc => ih (cacheImported kc entry)
  rw [hfold]
  rfl

/-! ## The writer's keychain -/

/-- The writer's last entry is current, and the library numbered its rotations
with new numbers. -/
structure Writing (kc : Keychain I K) : Prop where
  wellFormed : kc.WellFormed
  pending : kc.doc.pending = []
  nonempty : kc.doc.contents ≠ []
  uncontested : kc.lastUncontested = true

namespace UpdateContext

variable {c : UpdateContext I K N D S}

/-- The operation of a rotation. -/
def rotationOp (c : UpdateContext I K N D S) (kc : Keychain I K)
    (r : Rotation I K N) : PushOp (I × K) :=
  kc.entryOp c.flavour r.opId r.entry

/-- A rotation adds an entry and returns an update with one operation, which is
encrypted with the previous key. -/
theorem rotate_eq {kc : Keychain I K} (h : kc.Writing) (r : Rotation I K N)
    {previousKey : I × K}
    (hlast : kc.doc.contents.getLast? = some previousKey) :
    ∃ cache : LRUCache I K, c.rotate kc r =
      ({ kc.pushEntry c.flavour r.opId r.entry with
          cache := cache.set r.keyId r.key },
        .ok (c.distributeKeyUpdate [c.rotationOp kc r] previousKey
          r.nonce)) := by
  have huncontested := h.uncontested
  simp only [lastUncontested, hlast, decide_eq_true_eq] at huncontested
  have hcurrent : kc.current.1 = .ok previousKey := by
    rw [current_fst, hlast]
    dsimp only
    rw [huncontested]
  obtain ⟨cache, hcache⟩ := kc.current_snd
  have hpair : kc.current = (.ok previousKey, { kc with cache }) :=
    Prod.ext hcurrent hcache
  have hdelta : kc.delta c.flavour (c.rotationOp kc r) =
      [c.rotationOp kc r] := by
    cases hflavour : c.flavour with
    | yjs => simp [delta, h.pending]
    | automerge => rfl
  refine ⟨cache, ?_⟩
  rw [rotate, hpair, ← hdelta]
  rfl

theorem rotated_spec {kc : Keychain I K} (h : kc.Writing)
    {r : Rotation I K N} (hnew : kc.NewNumber r.opId) :
    (c.rotated kc r).Writing ∧
      (c.rotated kc r).doc = kc.doc.push (c.rotationOp kc r) ∧
      (c.rotated kc r).doc.contents = kc.doc.contents ++ [r.entry] := by
  obtain ⟨previousKey, hlast⟩ :=
    Option.isSome_iff_exists.1 (List.getLast?_isSome.2 h.nonempty)
  obtain ⟨cache, heq⟩ := c.rotate_eq h r hlast
  have hrotated : c.rotated kc r =
      { kc.pushEntry c.flavour r.opId r.entry with
        cache := cache.set r.keyId r.key } := congrArg Prod.fst heq
  have hcontents : (c.rotated kc r).doc.contents =
      kc.doc.contents ++ [r.entry] := by
    rw [hrotated]
    exact h.wellFormed.contents_pushEntry c.flavour hnew r.entry
  refine ⟨⟨?_, ?_, ?_, ?_⟩, ?_, hcontents⟩
  · rw [hrotated]
    exact (h.wellFormed.pushEntry c.flavour hnew r.entry).cache _
  · rw [hrotated]
    exact h.pending
  · simp [hcontents]
  · rw [lastUncontested, hcontents, List.getLast?_concat, hrotated]
    simp [Rotation.entry, LRUCache.get?_set]
  · rw [hrotated]
    rfl

/-- The writer's keychain after the first `n` rotations. -/
def afterRotations (c : UpdateContext I K N D S) (writer : Keychain I K)
    (rotations : List (Rotation I K N)) (n : ℕ) : Keychain I K :=
  exec c.rotated writer (rotations.take n)

/-- Every rotation gets a new number. -/
def NumbersNew (c : UpdateContext I K N D S) (writer : Keychain I K)
    (rotations : List (Rotation I K N)) : Prop :=
  Guarded c.rotated (fun kc r => kc.NewNumber r.opId) writer rotations

omit [DecidableEq K] in
theorem updates_getElem? (writer : Keychain I K)
    (rotations : List (Rotation I K N)) (n : ℕ) :
    (c.updates writer rotations)[n]? = rotations[n]?.map fun r =>
      (c.rotate (c.afterRotations writer rotations n) r).2 := by
  induction rotations generalizing writer n with
  | nil => rfl
  | cons r rotations ih =>
      cases n with
      | zero => rfl
      | succ n => exact ih (c.rotated writer r) n

omit [DecidableEq K] in
theorem afterRotations_succ (writer : Keychain I K)
    {rotations : List (Rotation I K N)} {n : ℕ} {r : Rotation I K N}
    (hr : rotations[n]? = some r) :
    c.afterRotations writer rotations (n + 1) =
      c.rotated (c.afterRotations writer rotations n) r := by
  rw [afterRotations, List.take_add_one, hr, exec_append]
  rfl

omit [DecidableEq K] in
theorem NumbersNew.newNumber {writer : Keychain I K}
    {rotations : List (Rotation I K N)} (h : c.NumbersNew writer rotations)
    {n : ℕ} {r : Rotation I K N} (hr : rotations[n]? = some r) :
    (c.afterRotations writer rotations n).NewNumber r.opId := by
  obtain ⟨hn, rfl⟩ := List.getElem?_eq_some_iff.1 hr
  rw [NumbersNew, ← List.take_append_drop n rotations,
    guarded_append_iff, List.drop_eq_getElem_cons hn] at h
  exact h.2.1

/-- The writer's list after the first `n` rotations. -/
def entriesAfter (writer : Keychain I K) (rotations : List (Rotation I K N))
    (n : ℕ) : List (I × K) :=
  writer.doc.contents ++ (rotations.take n).map Rotation.entry

theorem afterRotations_spec {writer : Keychain I K} (h : writer.Writing)
    {rotations : List (Rotation I K N)}
    (hnew : c.NumbersNew writer rotations) {n : ℕ}
    (hn : n ≤ rotations.length) :
    (c.afterRotations writer rotations n).Writing ∧
      (c.afterRotations writer rotations n).doc.contents =
        entriesAfter writer rotations n := by
  induction n with
  | zero => exact ⟨h, by simp [afterRotations, entriesAfter]⟩
  | succ n ih =>
      obtain ⟨hwriting, hcontents⟩ := ih (by omega)
      have hr : rotations[n]? = some rotations[n] :=
        List.getElem?_eq_getElem hn
      obtain ⟨hnext, -, hpushed⟩ := rotated_spec hwriting (hnew.newNumber hr)
      rw [afterRotations_succ writer hr]
      refine ⟨hnext, ?_⟩
      rw [hpushed, hcontents, entriesAfter, entriesAfter, List.take_add_one,
        hr, List.map_append, List.append_assoc]
      rfl

omit [DecidableEq I] [DecidableEq K] in
theorem entriesAfter_succ (writer : Keychain I K)
    {rotations : List (Rotation I K N)} {n : ℕ} {r : Rotation I K N}
    (hr : rotations[n]? = some r) :
    entriesAfter writer rotations (n + 1) =
      entriesAfter writer rotations n ++ [r.entry] := by
  rw [entriesAfter, entriesAfter, List.take_add_one, hr, List.map_append,
    List.append_assoc]
  rfl

omit [DecidableEq I] [DecidableEq K] in
theorem entriesAfter_sublist (writer : Keychain I K)
    (rotations : List (Rotation I K N)) {n m : ℕ} (hnm : n ≤ m) :
    (entriesAfter writer rotations n).Sublist
      (entriesAfter writer rotations m) :=
  ((List.take_sublist_take_left hnm).map _).append_left _

/-- The operations of earlier rotations are in the writer's log. -/
theorem rotationOp_mem_log {writer : Keychain I K} (h : writer.Writing)
    {rotations : List (Rotation I K N)}
    (hnew : c.NumbersNew writer rotations) {m n : ℕ} (hmn : m < n)
    (hn : n ≤ rotations.length) {r : Rotation I K N}
    (hr : rotations[m]? = some r) :
    c.rotationOp (c.afterRotations writer rotations m) r ∈
      (c.afterRotations writer rotations n).doc.log := by
  induction n with
  | zero => omega
  | succ n ih =>
      have hlast : rotations[n]? = some rotations[n] :=
        List.getElem?_eq_getElem hn
      have hpushed := (rotated_spec (c := c)
        (afterRotations_spec h hnew (by omega : n ≤ rotations.length)).1
        (hnew.newNumber hlast)).2.1
      rw [afterRotations_succ writer hlast, hpushed]
      rcases Nat.lt_succ_iff_lt_or_eq.1 hmn with hlt | rfl
      · exact List.mem_append_left _ (ih hlt (by omega))
      · rw [hr, Option.some.injEq] at hlast
        rw [← hlast]
        exact List.mem_append_right _ (List.mem_singleton_self _)

/-! ## What the reader accepts -/

omit [DecidableEq K] in
/-- An update is accepted by a reader that has cached the previous key. -/
theorem acceptedChanges_of_cached (hc : c.Lawful) {kc : Keychain I K}
    {changes : List (PushOp (I × K))} {previousKey : I × K} (nonce : N)
    (hcached : kc.cache.map.get? previousKey.1 = some previousKey.2) :
    c.acceptedChanges kc (c.distributeKeyUpdate changes previousKey nonce) =
      some changes := by
  simp only [acceptedChanges, distributeKeyUpdate, decryptBlock, getKey,
    LRUCache.get_fst, hcached, hc.decrypt, hc.deserialize]
  rw [if_neg (by simp)]
  by_cases hsigning : c.signingEnabled
  · simp [signAsWriter, hsigning, hc.verify]
  · simp [hsigning]

omit [DecidableEq K] in
/-- Without the previous key an update is dropped. -/
theorem acceptedChanges_of_missing {kc : Keychain I K}
    {update : KeyUpdate I N D}
    (hmissing : kc.cache.map.get? update.keyID = none) :
    c.acceptedChanges kc update = none := by
  simp only [acceptedChanges, decryptBlock, getKey, LRUCache.get_fst,
    hmissing]

end UpdateContext

/-! ## What a lookup does -/

/-- Keychains with the same list and the same cached keys. -/
structure SameKeys (kc kc' : Keychain I K) : Prop where
  doc : kc'.doc = kc.doc
  lastOwn : kc'.lastOwn = kc.lastOwn
  get? : ∀ id, kc'.cache.map.get? id = kc.cache.map.get? id
  maxSize : kc'.cache.maxSize = kc.cache.maxSize

omit [DecidableEq K] in
theorem sameKeys_getKey (kc : Keychain I K) (id : I) :
    SameKeys kc (kc.getKey id).2 :=
  ⟨rfl, rfl, fun _ => LRUCache.get?_get _ _ _, LRUCache.maxSize_get _ _⟩

/-- The entries that a call imports are uncached entries of the list, among
them the last one if it is uncached. -/
structure Looks (kc : Keychain I K) (start : Keychain I K × List (I × K)) :
    Prop where
  same : SameKeys kc start.1
  subset : ∀ entry ∈ start.2, entry ∈ kc.doc.contents
  last : ∀ entry ∈ kc.doc.contents.getLast?,
    kc.cache.map.get? entry.1 = none → entry ∈ start.2

omit [DecidableEq K] in
theorem looks_startCurrent (kc : Keychain I K) :
    Looks kc (startCurrent kc) := by
  rw [startCurrent]
  rcases hlast : kc.doc.contents.getLast? with _ | entry
  · exact ⟨⟨rfl, rfl, fun _ => rfl, rfl⟩, by simp, by simp [hlast]⟩
  · refine ⟨sameKeys_getKey kc entry.1, ?_, ?_⟩
    · intro entry' hentry'
      dsimp only at hentry'
      split at hentry'
      · rw [List.mem_singleton.1 hentry']
        exact List.mem_of_getLast? hlast
      · cases hentry'
    · intro entry' hentry' hmissing
      obtain rfl : entry = entry' := by simpa [hlast] using hentry'
      simp [hmissing]

omit [DecidableEq K] in
theorem maxSize_touchAll (cache : LRUCache I K) (entries : List (I × K)) :
    (touchAll cache entries).maxSize = cache.maxSize := by
  induction entries generalizing cache with
  | nil => rfl
  | cons entry entries ih =>
      rw [touchAll, List.foldl_cons, ← touchAll, ih, LRUCache.maxSize_get]

omit [DecidableEq K] in
theorem looks_startKeys (kc : Keychain I K) : Looks kc (startKeys kc) where
  same := ⟨rfl, rfl, fun _ => get?_touchAll _ _ _, maxSize_touchAll _ _⟩
  subset := fun _ hentry => List.mem_of_mem_filter hentry
  last := by
    intro entry hentry hmissing
    exact List.mem_filter.2
      ⟨List.mem_of_getLast? hentry, by rw [hmissing]; rfl⟩

end Collabswarm.Keychain
