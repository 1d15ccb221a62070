import Collabswarm.Keychain.KeyUpdates

/-!
# The chain of key updates

A writer rotates the key any number of times, and a reader handles the updates
in any order, with losses and repetitions, among its own lookups.  Between two
loads it follows the rotations exactly as far as it receives and merges the
update, looks up the new key and finishes the import, for one rotation after the
other.  An update that arrives before the previous key was imported is lost.
-/

namespace Collabswarm.Keychain

variable {I K N D S : Type} [DecidableEq I] [DecidableEq K]

open UpdateContext

/-- The reader has just loaded the writer's keychain and looked up the current
key.  The ids of all entries differ, and the cache has room for all of them. -/
structure Linked (c : UpdateContext I K N D S) (writer reader : Keychain I K)
    (rotations : List (Rotation I K N)) : Prop where
  writing : writer.Writing
  numbers : c.NumbersNew writer rotations
  nodup : ((entriesAfter writer rotations rotations.length).map
    Prod.fst).Nodup
  fits : (entriesAfter writer rotations rotations.length).length ≤
    reader.cache.maxSize
  wellFormed : reader.WellFormed
  sameLog : reader.doc.log.Perm writer.doc.log
  pending : reader.doc.pending = []
  cached : ∀ entry ∈ writer.doc.contents.getLast?,
    reader.cache.map.get? entry.1 = some entry.2
  honest : ∀ id key, reader.cache.map.get? id = some key →
    (id, key) ∈ writer.doc.contents

/-! ## The kinds of events -/

/-- What an event does for the chain of keys. -/
inductive ChainStep (I : Type) where
  | receive (n : ℕ)
  | merge (n : ℕ)
  | lookup
  | imported (keyId : Option I)
deriving DecidableEq

/-- The kind of an event; `current` and `keys` both look up the last key. -/
def ReaderEvent.kind : ReaderEvent I → ChainStep I
  | .receive n => .receive n
  | .merge n => .merge n
  | .current => .lookup
  | .keys => .lookup
  | .imported keyId => .imported (some keyId)

/-- The event a reader has to wait for: four for every rotation. -/
def awaited (rotations : List (Rotation I K N)) (g : ℕ) : ChainStep I :=
  match g % 4 with
  | 0 => .receive (g / 4)
  | 1 => .merge (g / 4)
  | 2 => .lookup
  | _ => .imported (rotations[g / 4]?.map Rotation.keyId)

section Awaited

variable {rotations : List (Rotation I K N)} {g : ℕ}

omit [DecidableEq I] [DecidableEq K]

theorem mod_four_cases (g : ℕ) :
    g % 4 = 0 ∨ g % 4 = 1 ∨ g % 4 = 2 ∨ g % 4 = 3 := by
  omega

theorem awaited_receive {n : ℕ} :
    ChainStep.receive n = awaited rotations g ↔ g = 4 * n := by
  rcases mod_four_cases g with h | h | h | h <;> simp [awaited, h] <;> omega

theorem awaited_merge {n : ℕ} :
    ChainStep.merge n = awaited rotations g ↔ g = 4 * n + 1 := by
  rcases mod_four_cases g with h | h | h | h <;> simp [awaited, h] <;> omega

theorem awaited_lookup :
    ChainStep.lookup = awaited rotations g ↔ g % 4 = 2 := by
  rcases mod_four_cases g with h | h | h | h <;> simp [awaited, h]

theorem awaited_imported {keyId : I} :
    ChainStep.imported (some keyId) = awaited rotations g ↔
      g % 4 = 3 ∧ ∃ r, rotations[g / 4]? = some r ∧ r.keyId = keyId := by
  rcases mod_four_cases g with h | h | h | h <;>
    simp [awaited, h, eq_comm]

end Awaited

/-! ## The stages of a reader -/

variable {c : UpdateContext I K N D S} {writer reader : Keychain I K}
  {rotations : List (Rotation I K N)}

/-- The reader's keychain at stage `g`: `(g + 2) / 4` rotations are in its list
and the keys up to rotation `g / 4` are cached, but not the key that is listed
and still to be imported. -/
structure KeysAt (c : UpdateContext I K N D S) (writer : Keychain I K)
    (rotations : List (Rotation I K N)) (g : ℕ) (kc : Keychain I K) :
    Prop where
  wellFormed : kc.WellFormed
  sameLog : kc.doc.log.Perm
    (c.afterRotations writer rotations ((g + 2) / 4)).doc.log
  pending : kc.doc.pending = []
  fits : (entriesAfter writer rotations rotations.length).length ≤
    kc.cache.maxSize
  honest : ∀ id key, kc.cache.map.get? id = some key →
    (id, key) ∈ entriesAfter writer rotations ((g + 2) / 4)
  cached : ∀ n ≤ g / 4,
    ∀ entry ∈ (entriesAfter writer rotations n).getLast?,
      kc.cache.map.get? entry.1 = some entry.2
  missing : 2 ≤ g % 4 →
    ∀ entry ∈ (entriesAfter writer rotations (g / 4 + 1)).getLast?,
      kc.cache.map.get? entry.1 = none

/-- A reader at stage `g`: which changes are accepted and which keys are being
imported. -/
structure Reader.At (c : UpdateContext I K N D S) (writer : Keychain I K)
    (rotations : List (Rotation I K N)) (g : ℕ) (s : Reader I K) : Prop where
  keys : KeysAt c writer rotations g s.keychain
  accepted : ∀ changes ∈ s.accepted, 4 * changes.1 + 1 ≤ g ∧
    ∃ r, rotations[changes.1]? = some r ∧
      changes.2 =
        [c.rotationOp (c.afterRotations writer rotations changes.1) r]
  acceptedNow : g % 4 = 1 → ∃ changes ∈ s.accepted, changes.1 = g / 4
  importing : ∀ entry ∈ s.importing,
    entry ∈ entriesAfter writer rotations ((g + 2) / 4)
  notYetImporting : g % 4 = 2 → ∀ r, rotations[g / 4]? = some r →
    ∀ entry ∈ s.importing, entry.1 ≠ r.keyId
  importingNow : g % 4 = 3 → ∀ r, rotations[g / 4]? = some r →
    ∃ entry ∈ s.importing, entry.1 = r.keyId

namespace Linked

/-- An entry of a rotation is not listed before it. -/
theorem not_mem_of_last (h : Linked c writer reader rotations) {m n : ℕ}
    (hmn : m < n) (hn : n ≤ rotations.length) {entry : I × K}
    (hentry : entry ∈ (entriesAfter writer rotations n).getLast?) (key : K) :
    (entry.1, key) ∉ entriesAfter writer rotations m := by
  obtain ⟨k, rfl⟩ : ∃ k, n = k + 1 := ⟨n - 1, by omega⟩
  have hr : rotations[k]? = some rotations[k] := List.getElem?_eq_getElem hn
  have hnodup := h.nodup.sublist
    ((entriesAfter_sublist writer rotations hn).map Prod.fst)
  rw [entriesAfter_succ writer hr] at hentry hnodup
  rw [List.getLast?_concat, Option.mem_some_iff] at hentry
  subst hentry
  rw [List.map_append, List.nodup_append] at hnodup
  intro hmem
  have hfirst := (entriesAfter_sublist writer rotations
    (by omega : m ≤ k)).subset hmem
  exact hnodup.2.2 _ (List.mem_map_of_mem hfirst) _ (by simp) rfl

/-- The entries of a list are determined by their ids. -/
theorem entry_unique (h : Linked c writer reader rotations) {m n : ℕ}
    (hm : m ≤ rotations.length) (hn : n ≤ rotations.length)
    {entry entry' : I × K} (hentry : entry ∈ entriesAfter writer rotations m)
    (hentry' : entry' ∈ entriesAfter writer rotations n)
    (hid : entry.1 = entry'.1) : entry = entry' :=
  List.inj_on_of_nodup_map h.nodup
    ((entriesAfter_sublist writer rotations hm).subset hentry)
    ((entriesAfter_sublist writer rotations hn).subset hentry') hid

end Linked

namespace KeysAt

omit [DecidableEq K] in
theorem congr {g : ℕ} {kc kc' : Keychain I K}
    (h : KeysAt c writer rotations g kc) (hsame : SameKeys kc kc') :
    KeysAt c writer rotations g kc' where
  wellFormed := by
    refine ⟨?_, ?_⟩
    · rw [hsame.doc]
      exact h.wellFormed.doc
    · rw [hsame.doc, hsame.lastOwn]
      exact h.wellFormed.own
  sameLog := by
    rw [hsame.doc]
    exact h.sameLog
  pending := by
    rw [hsame.doc]
    exact h.pending
  fits := by
    rw [hsame.maxSize]
    exact h.fits
  honest := by
    intro id key hget
    rw [hsame.get?] at hget
    exact h.honest id key hget
  cached := by
    intro n hn entry hentry
    rw [hsame.get?]
    exact h.cached n hn entry hentry
  missing := by
    intro hg entry hentry
    rw [hsame.get?]
    exact h.missing hg entry hentry

/-- The reader's list is the writer's list after the listed rotations. -/
theorem contents (hlinked : Linked c writer reader rotations) {g : ℕ}
    (hg : g ≤ 4 * rotations.length) {kc : Keychain I K}
    (h : KeysAt c writer rotations g kc) :
    kc.doc.contents = entriesAfter writer rotations ((g + 2) / 4) := by
  obtain ⟨hwriting, hcontents⟩ := afterRotations_spec (c := c)
    hlinked.writing hlinked.numbers
    (by omega : (g + 2) / 4 ≤ rotations.length)
  rw [← hcontents, CausalLog.contents, CausalLog.contents,
    CausalLog.visible_eq_of_perm hwriting.wellFormed.doc.nodup_log h.sameLog]

/-- The last key after `n` rotations is cached exactly from stage `4 * n`
on. -/
theorem get?_last (hlinked : Linked c writer reader rotations) {g n : ℕ}
    (hn : n ≤ rotations.length) {kc : Keychain I K}
    (h : KeysAt c writer rotations g kc) {entry : I × K}
    (hentry : entry ∈ (entriesAfter writer rotations n).getLast?) :
    kc.cache.map.get? entry.1 = if 4 * n ≤ g then some entry.2 else none := by
  split
  · exact h.cached n (by omega) entry hentry
  · by_cases hlisted : n ≤ (g + 2) / 4
    · -- the key is in the list and still to be imported
      have hn' : n = g / 4 + 1 := by omega
      subst hn'
      exact h.missing (by omega) entry hentry
    · cases hget : kc.cache.map.get? entry.1 with
      | none => rfl
      | some key =>
          exact absurd (h.honest entry.1 key hget)
            (hlinked.not_mem_of_last (by omega) hn hentry key)

omit [DecidableEq K] in
/-- Accepting an update changes nothing in the keychain. -/
theorem receiving {n : ℕ} {kc : Keychain I K}
    (h : KeysAt c writer rotations (4 * n) kc) :
    KeysAt c writer rotations (4 * n + 1) kc := by
  have hlisted : (4 * n + 1 + 2) / 4 = (4 * n + 2) / 4 := by omega
  have hcached : (4 * n + 1) / 4 = 4 * n / 4 := by omega
  exact {
    wellFormed := h.wellFormed
    sameLog := by
      rw [hlisted]
      exact h.sameLog
    pending := h.pending
    fits := h.fits
    honest := by
      rw [hlisted]
      exact h.honest
    cached := by
      rw [hcached]
      exact h.cached
    missing := by omega }

/-- Merging the operation of a rotation that is listed changes nothing. -/
theorem merge_known (hlinked : Linked c writer reader rotations) {g n : ℕ}
    (hg : g ≤ 4 * rotations.length) {kc : Keychain I K}
    (h : KeysAt c writer rotations g kc) (hn : n < (g + 2) / 4)
    {r : Rotation I K N} (hr : rotations[n]? = some r) :
    kc.merge [c.rotationOp (c.afterRotations writer rotations n) r] = kc := by
  have hmem := rotationOp_mem_log hlinked.writing hlinked.numbers hn
    (by omega) hr
  have hknown : kc.doc.receive
      [c.rotationOp (c.afterRotations writer rotations n) r] = kc.doc := by
    refine h.wellFormed.doc.receive_known ?_
    intro op hop
    rw [List.mem_singleton.1 hop]
    exact List.mem_map_of_mem
      (List.mem_append_left _ (h.sameLog.mem_iff.2 hmem))
  rw [Keychain.merge, hknown]

/-- The operation of the next rotation is applied at once. -/
theorem merge_next (hlinked : Linked c writer reader rotations) {n : ℕ}
    {kc : Keychain I K} (h : KeysAt c writer rotations (4 * n + 1) kc)
    {r : Rotation I K N} (hr : rotations[n]? = some r) :
    KeysAt c writer rotations (4 * n + 2)
      (kc.merge [c.rotationOp (c.afterRotations writer rotations n) r]) := by
  obtain ⟨hn, -⟩ := List.getElem?_eq_some_iff.1 hr
  obtain ⟨hwriting, hcontents⟩ := afterRotations_spec (c := c)
    hlinked.writing hlinked.numbers hn.le
  have hnew := hlinked.numbers.newNumber hr
  have hsameLog := h.sameLog
  rw [show (4 * n + 1 + 2) / 4 = n by omega] at hsameLog
  have hids : ∀ x, x ∈ kc.doc.ids ↔
      x ∈ (c.afterRotations writer rotations n).doc.ids :=
    fun x => (hsameLog.map CausalOp.id).mem_iff
  set op := c.rotationOp (c.afterRotations writer rotations n) r with hopdef
  have hready : kc.doc.ready op = true := by
    refine CausalLog.ready_iff.2 ?_
    intro x hx
    exact (hids x).2 (hwriting.wellFormed.pushDeps_subset c.flavour hx)
  have hunknown : op.id ∉ kc.doc.ids := by
    rw [hids]
    exact hnew.not_mem_ids
  have hdoc : (kc.merge [op]).doc = kc.doc.push op :=
    CausalLog.receive_ready h.pending hready hunknown
  have hrotated := (rotated_spec (c := c) hwriting hnew).2.1
  rw [← afterRotations_succ writer hr] at hrotated
  have hhonest := h.honest
  rw [show (4 * n + 1 + 2) / 4 = n by omega] at hhonest
  refine {
    wellFormed := h.wellFormed.merge _
    sameLog := ?_
    pending := ?_
    fits := h.fits
    honest := ?_
    cached := ?_
    missing := ?_ }
  · rw [show (4 * n + 2 + 2) / 4 = n + 1 by omega, hrotated, hdoc]
    exact hsameLog.append_right [op]
  · rw [hdoc]
    exact h.pending
  · intro id key hget
    rw [show (4 * n + 2 + 2) / 4 = n + 1 by omega]
    exact (entriesAfter_sublist writer rotations (Nat.le_succ n)).subset
      (hhonest id key hget)
  · intro m hm
    exact h.cached m (by omega)
  · intro _ entry hentry
    rw [show (4 * n + 2) / 4 + 1 = n + 1 by omega] at hentry
    exact (h.get?_last hlinked (by omega) hentry).trans
      (if_neg (by omega))

omit [DecidableEq K] in
/-- Starting an import changes nothing in the keychain. -/
theorem importing {g : ℕ} (hphase : g % 4 = 2) {kc : Keychain I K}
    (h : KeysAt c writer rotations g kc) :
    KeysAt c writer rotations (g + 1) kc := by
  have hlisted : (g + 1 + 2) / 4 = (g + 2) / 4 := by omega
  have hcached : (g + 1) / 4 = g / 4 := by omega
  exact {
    wellFormed := h.wellFormed
    sameLog := by
      rw [hlisted]
      exact h.sameLog
    pending := h.pending
    fits := h.fits
    honest := by
      rw [hlisted]
      exact h.honest
    cached := by
      rw [hcached]
      exact h.cached
    missing := by
      rw [hcached]
      exact fun _ => h.missing (by omega) }

omit [DecidableEq K] in
/-- Caching a key of the list evicts none. -/
theorem get?_cacheImported {g : ℕ} (hg : g ≤ 4 * rotations.length)
    {kc : Keychain I K} (h : KeysAt c writer rotations g kc) {entry : I × K}
    (hentry : entry ∈ entriesAfter writer rotations ((g + 2) / 4)) (id : I) :
    (cacheImported kc entry).cache.map.get? id =
      if id = entry.1 then some entry.2 else kc.cache.map.get? id := by
  have hsub := (entriesAfter_sublist writer rotations
    (by omega : (g + 2) / 4 ≤ rotations.length)).subset
  have hids : ∀ id, (kc.cache.map.get? id).isSome → id ∈
      (entriesAfter writer rotations rotations.length).map Prod.fst := by
    intro id hid
    obtain ⟨key, hkey⟩ := Option.isSome_iff_exists.1 hid
    exact List.mem_map.2 ⟨(id, key), hsub (h.honest id key hkey), rfl⟩
  have hevicted : kc.cache.evicted entry.1 = none := by
    refine LRUCache.evicted_of_subset hids ?_
      (List.mem_map_of_mem (hsub hentry))
    rw [List.length_map]
    exact h.fits
  rw [cacheImported, LRUCache.get?_set, hevicted]
  rfl

/-- Caching a key that is not the missing one. -/
theorem cache_other (hlinked : Linked c writer reader rotations)
    {g : ℕ} (hg : g ≤ 4 * rotations.length) {kc : Keychain I K}
    (h : KeysAt c writer rotations g kc) {entry : I × K}
    (hentry : entry ∈ entriesAfter writer rotations ((g + 2) / 4))
    (hne : 2 ≤ g % 4 → ∀ r, rotations[g / 4]? = some r →
      r.keyId ≠ entry.1) :
    KeysAt c writer rotations g (cacheImported kc entry) where
  wellFormed := h.wellFormed.cache _
  sameLog := h.sameLog
  pending := h.pending
  fits := by
    rw [cacheImported, LRUCache.maxSize_set]
    exact h.fits
  honest := by
    intro id key hget
    rw [h.get?_cacheImported hg hentry] at hget
    split at hget
    · rename_i hid
      rw [hid, ← Option.some.inj hget]
      exact hentry
    · exact h.honest id key hget
  cached := by
    intro n hn entry' hentry'
    rw [h.get?_cacheImported hg hentry]
    split
    · rename_i hid
      rw [hlinked.entry_unique (by omega) (by omega) hentry
        (List.mem_of_getLast? hentry') hid.symm]
    · exact h.cached n hn entry' hentry'
  missing := by
    intro hphase entry' hentry'
    have hr : rotations[g / 4]? = some rotations[g / 4] :=
      List.getElem?_eq_getElem (by omega)
    have hlast := hentry'
    rw [entriesAfter_succ writer hr, List.getLast?_concat,
      Option.mem_some_iff] at hlast
    rw [h.get?_cacheImported hg hentry, if_neg]
    · exact h.missing hphase entry' hentry'
    · rw [← hlast]
      exact hne hphase _ hr

/-- Caching the key that is awaited. -/
theorem cache_next (hlinked : Linked c writer reader rotations)
    {g : ℕ} (hg : g ≤ 4 * rotations.length) (hphase : g % 4 = 3)
    {kc : Keychain I K} (h : KeysAt c writer rotations g kc) {entry : I × K}
    (hentry : entry ∈ entriesAfter writer rotations ((g + 2) / 4))
    (hnow : ∃ r, rotations[g / 4]? = some r ∧ r.keyId = entry.1) :
    KeysAt c writer rotations (g + 1) (cacheImported kc entry) := by
  obtain ⟨r, hr, hid⟩ := hnow
  have hlisted : (g + 1 + 2) / 4 = (g + 2) / 4 := by omega
  have hget := h.get?_cacheImported hg hentry
  exact {
    wellFormed := h.wellFormed.cache _
    sameLog := by
      rw [hlisted]
      exact h.sameLog
    pending := h.pending
    fits := by
      rw [cacheImported, LRUCache.maxSize_set]
      exact h.fits
    honest := by
      intro id key hid
      rw [hlisted]
      rw [hget] at hid
      split at hid
      · rename_i heq
        rw [heq, ← Option.some.inj hid]
        exact hentry
      · exact h.honest id key hid
    cached := by
      intro n hn entry' hentry'
      rw [hget]
      split
      · rename_i heq
        rw [hlinked.entry_unique (by omega) (by omega) hentry
          (List.mem_of_getLast? hentry') heq.symm]
      · rename_i hne
        refine h.cached n ?_ entry' hentry'
        by_contra hlate
        -- the entry of the rotation is the one that is cached
        obtain rfl : n = g / 4 + 1 := by omega
        rw [entriesAfter_succ writer hr, List.getLast?_concat,
          Option.mem_some_iff] at hentry'
        rw [← hentry'] at hne
        exact hne hid
    missing := by omega }

end KeysAt

/-! ## Steps of a reader -/

namespace Reader.At

variable {g : ℕ} {s : Reader I K}

/-- The stage after an event. -/
def next (rotations : List (Rotation I K N)) (g : ℕ) (e : ReaderEvent I) :
    ℕ :=
  if g < 4 * rotations.length ∧ e.kind = awaited rotations g then g + 1 else g

/-- An update is accepted from the stage on at which it is awaited, and dropped
before. -/
theorem receive (hlinked : Linked c writer reader rotations) (hc : c.Lawful)
    (hg : g ≤ 4 * rotations.length) (h : s.At c writer rotations g) (n : ℕ) :
    (s.step c (c.updates writer rotations) (.receive n)).At c writer rotations
      (next rotations g (.receive n)) := by
  have hnext : next rotations g (.receive n) =
      if g < 4 * rotations.length ∧ g = 4 * n then g + 1 else g := by
    simp only [next, ReaderEvent.kind, awaited_receive]
  rw [hnext, step, updates_getElem?]
  rcases hr : rotations[n]? with _ | r
  · have hn : rotations.length ≤ n := List.getElem?_eq_none_iff.1 hr
    rw [if_neg (by omega)]
    exact h
  obtain ⟨hn, -⟩ := List.getElem?_eq_some_iff.1 hr
  obtain ⟨hwriting, hcontents⟩ := afterRotations_spec (c := c)
    hlinked.writing hlinked.numbers hn.le
  obtain ⟨previousKey, hlast⟩ :=
    Option.isSome_iff_exists.1 (List.getLast?_isSome.2 hwriting.nonempty)
  obtain ⟨cache, hrotate⟩ := c.rotate_eq hwriting r hlast
  rw [hcontents] at hlast
  have hget := h.keys.get?_last hlinked hn.le hlast
  have hkeys := h.keys.congr (sameKeys_getKey s.keychain previousKey.1)
  simp only [Option.map_some, hrotate]
  by_cases hreached : 4 * n ≤ g
  · -- the previous key is cached
    rw [if_pos hreached] at hget
    rw [acceptedChanges_of_cached hc _ hget]
    have haccepted : ∀ changes ∈ s.accepted ++
        [(n, [c.rotationOp (c.afterRotations writer rotations n) r])],
        (4 * changes.1 + 1 ≤ g ∨ changes.1 = n) ∧
          ∃ r, rotations[changes.1]? = some r ∧ changes.2 =
            [c.rotationOp (c.afterRotations writer rotations changes.1) r] := by
      intro changes hchanges
      rcases List.mem_append.1 hchanges with hold | hnew
      · obtain ⟨hbefore, hop⟩ := h.accepted changes hold
        exact ⟨Or.inl hbefore, hop⟩
      · rw [List.mem_singleton.1 hnew]
        exact ⟨Or.inr rfl, r, hr, rfl⟩
    by_cases hnow : g = 4 * n
    · subst hnow
      rw [if_pos ⟨by omega, rfl⟩]
      exact {
        keys := hkeys.receiving
        accepted := by
          intro changes hchanges
          obtain ⟨hbefore, hop⟩ := haccepted changes hchanges
          exact ⟨by omega, hop⟩
        acceptedNow := fun _ => ⟨_, List.mem_append_right _
          (List.mem_singleton_self _), by dsimp only; omega⟩
        importing := by
          rw [show (4 * n + 1 + 2) / 4 = (4 * n + 2) / 4 by omega]
          exact h.importing
        notYetImporting := by omega
        importingNow := by omega }
    · rw [if_neg (fun h => hnow h.2)]
      exact {
        keys := hkeys
        accepted := by
          intro changes hchanges
          obtain ⟨hbefore, hop⟩ := haccepted changes hchanges
          exact ⟨by omega, hop⟩
        acceptedNow := by
          intro hphase
          obtain ⟨changes, hchanges, hnumber⟩ := h.acceptedNow hphase
          exact ⟨changes, List.mem_append_left _ hchanges, hnumber⟩
        importing := h.importing
        notYetImporting := h.notYetImporting
        importingNow := h.importingNow }
  · -- the previous key is missing
    rw [if_neg hreached] at hget
    rw [acceptedChanges_of_missing hget, if_neg (by omega)]
    exact {
      keys := hkeys
      accepted := by simpa using h.accepted
      acceptedNow := by simpa using h.acceptedNow
      importing := h.importing
      notYetImporting := h.notYetImporting
      importingNow := h.importingNow }

/-- Accepted changes are merged; what was merged before changes nothing. -/
theorem merge (hlinked : Linked c writer reader rotations)
    (hg : g ≤ 4 * rotations.length) (h : s.At c writer rotations g) (n : ℕ) :
    (s.step c (c.updates writer rotations) (.merge n)).At c writer rotations
      (next rotations g (.merge n)) := by
  have hnext : next rotations g (.merge n) =
      if g < 4 * rotations.length ∧ g = 4 * n + 1 then g + 1 else g := by
    simp only [next, ReaderEvent.kind, awaited_merge]
  rw [hnext]
  rcases hfind : s.accepted.find? (·.1 = n) with _ | changes
  · simp only [step, hfind]
    rw [if_neg]
    · exact h
    · rintro ⟨-, hnow⟩
      obtain ⟨changes, hchanges, hnumber⟩ := h.acceptedNow (by omega)
      have hne := List.find?_eq_none.1 hfind changes hchanges
      simp only [decide_eq_true_eq] at hne
      omega
  have hnumber : changes.1 = n := by simpa using List.find?_some hfind
  obtain ⟨hbefore, r, hr, hop⟩ :=
    h.accepted changes (List.mem_of_find?_eq_some hfind)
  rw [hnumber] at hbefore hr hop
  have haccepted : ∀ changes ∈ s.accepted.eraseP (·.1 = n),
      changes ∈ s.accepted := fun changes => List.mem_of_mem_eraseP
  obtain ⟨hn, -⟩ := List.getElem?_eq_some_iff.1 hr
  simp only [step, hfind, hop]
  by_cases hnow : g = 4 * n + 1
  · subst hnow
    rw [if_pos ⟨by omega, rfl⟩]
    have hsub := (entriesAfter_sublist writer rotations
      (by omega : (4 * n + 1 + 2) / 4 ≤ (4 * n + 1 + 1 + 2) / 4)).subset
    exact {
      keys := h.keys.merge_next hlinked hr
      accepted := by
        intro changes hchanges
        obtain ⟨hbefore, hop⟩ := h.accepted changes (haccepted _ hchanges)
        exact ⟨by omega, hop⟩
      acceptedNow := by omega
      importing := fun entry hentry => hsub (h.importing entry hentry)
      notYetImporting := by
        intro _ r' hr' entry hentry hid
        have hlast : r'.entry ∈
            (entriesAfter writer rotations (n + 1)).getLast? := by
          rw [show (4 * n + 1 + 1) / 4 = n by omega] at hr'
          simp [entriesAfter_succ writer hr']
        refine hlinked.not_mem_of_last (m := (4 * n + 1 + 2) / 4) (by omega)
          (by omega) hlast entry.2 ?_
        rw [show r'.entry.1 = entry.1 from hid.symm]
        exact h.importing entry hentry
      importingNow := by omega }
  · rw [if_neg (fun h => hnow h.2), h.keys.merge_known hlinked hg (by omega) hr]
    exact {
      keys := h.keys
      accepted := fun changes hchanges =>
        h.accepted changes (haccepted changes hchanges)
      acceptedNow := by
        intro hphase
        obtain ⟨changes, hchanges, hnumber⟩ := h.acceptedNow hphase
        refine ⟨changes, ?_, hnumber⟩
        rw [List.mem_eraseP_of_neg]
        · exact hchanges
        · simp only [decide_eq_true_eq]
          omega
      importing := h.importing
      notYetImporting := h.notYetImporting
      importingNow := h.importingNow }

/-- A lookup imports the key that is listed and missing. -/
theorem look (hlinked : Linked c writer reader rotations)
    (hg : g ≤ 4 * rotations.length) (h : s.At c writer rotations g)
    {start : Keychain I K × List (I × K)} (hlooks : Looks s.keychain start) :
    (s.look start).At c writer rotations
      (if g < 4 * rotations.length ∧ g % 4 = 2 then g + 1 else g) := by
  have hkeys := h.keys.congr hlooks.same
  have hcontents := h.keys.contents hlinked hg
  have himporting : ∀ entry ∈ s.importing ++ start.2,
      entry ∈ entriesAfter writer rotations ((g + 2) / 4) := by
    intro entry hentry
    rcases List.mem_append.1 hentry with hold | hnew
    · exact h.importing entry hold
    · rw [← hcontents]
      exact hlooks.subset entry hnew
  by_cases hphase : g % 4 = 2
  · have hn : g / 4 < rotations.length := by omega
    have hr : rotations[g / 4]? = some rotations[g / 4] :=
      List.getElem?_eq_getElem hn
    rw [if_pos ⟨by omega, hphase⟩]
    exact {
      keys := hkeys.importing hphase
      accepted := by
        intro changes hchanges
        obtain ⟨hbefore, hop⟩ := h.accepted changes hchanges
        exact ⟨by omega, hop⟩
      acceptedNow := by omega
      importing := by
        rw [show (g + 1 + 2) / 4 = (g + 2) / 4 by omega]
        exact himporting
      notYetImporting := by omega
      importingNow := by
        intro _ r hr'
        rw [show (g + 1) / 4 = g / 4 by omega] at hr'
        have hlast : r.entry ∈ s.keychain.doc.contents.getLast? := by
          rw [hcontents, show (g + 2) / 4 = g / 4 + 1 by omega,
            entriesAfter_succ writer hr']
          simp
        have hmissing : s.keychain.cache.map.get? r.entry.1 = none := by
          apply h.keys.missing (by omega)
          rw [entriesAfter_succ writer hr']
          simp
        exact ⟨r.entry,
          List.mem_append_right _ (hlooks.last r.entry hlast hmissing), rfl⟩ }
  · rw [if_neg (fun h => hphase h.2)]
    exact {
      keys := hkeys
      accepted := h.accepted
      acceptedNow := h.acceptedNow
      importing := himporting
      notYetImporting := fun h => absurd h hphase
      importingNow := by
        intro hnow r hr
        obtain ⟨entry, hentry, hid⟩ := h.importingNow hnow r hr
        exact ⟨entry, List.mem_append_left _ hentry, hid⟩ }

/-- A finished import caches the key that is awaited. -/
theorem imported (hlinked : Linked c writer reader rotations)
    (hg : g ≤ 4 * rotations.length) (h : s.At c writer rotations g)
    (keyId : I) :
    (s.step c (c.updates writer rotations) (.imported keyId)).At c writer
      rotations (next rotations g (.imported keyId)) := by
  have hnext : next rotations g (.imported keyId) =
      if g < 4 * rotations.length ∧ g % 4 = 3 ∧
        ∃ r, rotations[g / 4]? = some r ∧ r.keyId = keyId then g + 1
      else g := by
    simp only [next, ReaderEvent.kind, awaited_imported]
  rw [hnext]
  rcases hfind : s.importing.find? (·.1 = keyId) with _ | entry
  · simp only [step, hfind]
    rw [if_neg]
    · exact h
    · rintro ⟨-, hphase, r, hr, hid⟩
      obtain ⟨entry, hentry, hid'⟩ := h.importingNow hphase r hr
      have hne := List.find?_eq_none.1 hfind entry hentry
      simp only [decide_eq_true_eq] at hne
      exact hne (hid'.trans hid)
  have hid : entry.1 = keyId := by simpa using List.find?_some hfind
  have hentry := h.importing entry (List.mem_of_find?_eq_some hfind)
  have hsub : ∀ e ∈ s.importing.eraseP (·.1 = keyId), e ∈ s.importing :=
    fun e => List.mem_of_mem_eraseP
  simp only [step, hfind]
  by_cases hnow : g % 4 = 3 ∧
      ∃ r, rotations[g / 4]? = some r ∧ r.keyId = keyId
  · have hphase := hnow.1
    rw [if_pos ⟨by omega, hnow⟩]
    exact {
      keys := h.keys.cache_next hlinked hg hphase hentry
        (by rw [hid]; exact hnow.2)
      accepted := by
        intro changes hchanges
        obtain ⟨hbefore, hop⟩ := h.accepted changes hchanges
        exact ⟨by omega, hop⟩
      acceptedNow := by omega
      importing := by
        rw [show (g + 1 + 2) / 4 = (g + 2) / 4 by omega]
        exact fun e he => h.importing e (hsub e he)
      notYetImporting := by omega
      importingNow := by omega }
  · rw [if_neg (fun h => hnow h.2)]
    have hne : 2 ≤ g % 4 → ∀ r, rotations[g / 4]? = some r →
        r.keyId ≠ keyId := by
      intro hphase r hr heq
      rcases (by omega : g % 4 = 2 ∨ g % 4 = 3) with htwo | hthree
      · exact h.notYetImporting htwo r hr entry
          (List.mem_of_find?_eq_some hfind) (hid.trans heq.symm)
      · exact hnow ⟨hthree, r, hr, heq⟩
    exact {
      keys := h.keys.cache_other hlinked hg hentry
        (by rw [hid]; exact hne)
      accepted := h.accepted
      acceptedNow := h.acceptedNow
      importing := fun e he => h.importing e (hsub e he)
      notYetImporting := fun hphase r hr e he =>
        h.notYetImporting hphase r hr e (hsub e he)
      importingNow := by
        intro hphase r hr
        obtain ⟨e, he, heq⟩ := h.importingNow hphase r hr
        refine ⟨e, ?_, heq⟩
        rw [List.mem_eraseP_of_neg]
        · exact he
        · simp only [decide_eq_true_eq]
          rw [heq]
          exact hne (by omega) r hr }

end Reader.At

/-! ## Runs -/

/-- One event of a reader. -/
theorem Reader.At.step (hlinked : Linked c writer reader rotations)
    (hc : c.Lawful) {g : ℕ} (hg : g ≤ 4 * rotations.length) {s : Reader I K}
    (h : s.At c writer rotations g) (e : ReaderEvent I) :
    (s.step c (c.updates writer rotations) e).At c writer rotations
      (Reader.At.next rotations g e) := by
  have hlookup : ∀ e : ReaderEvent I, e.kind = .lookup →
      Reader.At.next rotations g e =
        if g < 4 * rotations.length ∧ g % 4 = 2 then g + 1 else g := by
    intro e he
    simp only [Reader.At.next, he, awaited_lookup]
  cases e with
  | receive n => exact h.receive hlinked hc hg n
  | merge n => exact h.merge hlinked hg n
  | current =>
      rw [hlookup .current rfl]
      exact h.look hlinked hg (looks_startCurrent _)
  | keys =>
      rw [hlookup .keys rfl]
      exact h.look hlinked hg (looks_startKeys _)
  | imported keyId => exact h.imported hlinked hg keyId

/-- The reader after it has loaded. -/
def Reader.loaded (keychain : Keychain I K) : Reader I K := ⟨keychain, [], []⟩

theorem Linked.loaded_at (h : Linked c writer reader rotations) :
    (Reader.loaded reader).At c writer rotations 0 where
  keys := {
    wellFormed := h.wellFormed
    sameLog := h.sameLog
    pending := h.pending
    fits := h.fits
    honest := by
      intro id key hget
      exact List.mem_append_left _ (h.honest id key hget)
    cached := by
      intro n hn entry hentry
      obtain rfl : n = 0 := by omega
      exact h.cached entry (by simpa [entriesAfter] using hentry)
    missing := by omega }
  accepted := by simp [Reader.loaded]
  acceptedNow := by omega
  importing := by simp [Reader.loaded]
  notYetImporting := by omega
  importingNow := by omega

/-- After any events the reader is at the stage that is matched in their
kinds. -/
theorem Linked.run_at (h : Linked c writer reader rotations) (hc : c.Lawful)
    (events : List (ReaderEvent I)) :
    (exec (Reader.step c (c.updates writer rotations)) (Reader.loaded reader)
      events).At c writer rotations
      (min (matched (awaited rotations) (events.map ReaderEvent.kind))
        (4 * rotations.length)) := by
  refine stage_exec (fun g s => Reader.At c writer rotations
    (min g (4 * rotations.length)) s) ?_ events ?_
  · intro g s e hat
    have hstep := hat.step h hc (Nat.min_le_right _ _) e
    have hnext : Reader.At.next rotations
          (min g (4 * rotations.length)) e =
        min (if e.kind = awaited rotations g then g + 1 else g)
          (4 * rotations.length) := by
      rw [Reader.At.next]
      by_cases hg : g < 4 * rotations.length
      · rw [min_eq_left hg.le]
        simp only [hg, true_and]
        split <;> omega
      · rw [min_eq_right (by omega), if_neg (by omega)]
        split <;> omega
    rw [← hnext]
    exact hstep
  · rw [Nat.zero_min]
    exact h.loaded_at

/-- The entry of a rotation is in the list of `m` rotations exactly if it is
one of them. -/
theorem Linked.entry_mem_iff (h : Linked c writer reader rotations) {m n : ℕ}
    {r : Rotation I K N}
    (hr : rotations[n]? = some r) :
    r.entry ∈ entriesAfter writer rotations m ↔ n < m := by
  obtain ⟨hn, -⟩ := List.getElem?_eq_some_iff.1 hr
  have hlast : r.entry ∈
      (entriesAfter writer rotations (n + 1)).getLast? := by
    simp [entriesAfter_succ writer hr]
  constructor
  · intro hmem
    by_contra hnot
    exact h.not_mem_of_last (by omega : m < n + 1) (by omega) hlast r.key hmem
  · intro hnm
    exact (entriesAfter_sublist writer rotations hnm).subset
      (List.mem_of_getLast? hlast)

section Example

/-- A message under the keys it was encrypted with. -/
abbrev SealedMessage := KeyUpdateMessage ℕ ℕ ℕ × List ℕ

/-- Encryption puts a key on top, decryption takes the same key off, and a
signature is the length of the document path. -/
def sealingContext : UpdateContext ℕ ℕ ℕ SealedMessage ℕ where
  flavour := .yjs
  documentPath := "/notes"
  signingEnabled := true
  serializeSyncMessage message := (message, [])
  deserializeSyncMessage data := if data.2 = [] then some data.1 else none
  encrypt data key _ := (data.1, key :: data.2)
  decrypt data key _ :=
    if data.2.head? = some key then some (data.1, data.2.tail) else none
  sign data := data.1.documentId.length
  verifyWriterSignature data signature :=
    data.1.documentId.length = signature

theorem sealingContext_lawful : sealingContext.Lawful :=
  ⟨fun _ => rfl, fun _ _ _ => by simp [sealingContext],
    fun _ => by simp [sealingContext]⟩

/-- A writer with one key, and a reader that loaded it and looked it up. -/
def foundedWriter : Keychain ℕ ℕ := ((new : Keychain ℕ ℕ).add .yjs 0 1 11).1

def loadedReader : Keychain ℕ ℕ :=
  ((new : Keychain ℕ ℕ).merge (foundedWriter.history .yjs)).current.2

/-- Two rotations. -/
def twoRotations : List (Rotation ℕ ℕ ℕ) := [⟨1, 2, 22, 0⟩, ⟨2, 3, 33, 0⟩]

theorem foundedWriter_wellFormed : foundedWriter.WellFormed :=
  new_wellFormed.step .yjs (.add 0 1 11) (by simp [NumbersNew, NewNumber, new,
    CausalLog.all, CausalLog.empty])

theorem loadedReader_wellFormed : loadedReader.WellFormed :=
  (new_wellFormed.merge _).step .yjs .current trivial

theorem linked_twoRotations :
    Linked sealingContext foundedWriter loadedReader twoRotations where
  writing := ⟨foundedWriter_wellFormed, rfl, by decide, by decide⟩
  numbers := by
    refine ⟨?_, ?_, trivial⟩
    · unfold NewNumber
      decide
    · unfold NewNumber
      decide
  nodup := by decide
  fits := by decide
  wellFormed := loadedReader_wellFormed
  sameLog := by decide
  pending := rfl
  cached := by decide
  honest := by
    intro id key hget
    have hmem := loadedReader.cache.map.mem_entries_iff.2 hget
    have hentries : loadedReader.cache.map.entries = [(1, 11)] := by decide
    have hcontents : foundedWriter.doc.contents = [(1, 11)] := by decide
    rw [hcontents]
    rwa [hentries] at hmem

/-- An update that overtakes another one is lost, and a key that is merged and
not looked up is not found. -/
def overtakingEvents : List (ReaderEvent ℕ) :=
  [.receive 1, .receive 0, .merge 0, .keys, .imported 2, .merge 1, .receive 1,
    .merge 1]

end Example

end Collabswarm.Keychain
