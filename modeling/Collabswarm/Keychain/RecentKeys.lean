import Mathlib.Tactic
import Collabswarm.Keychain.LRUCache
import Collabswarm.Support.RecentList
import Collabswarm.Support.Transition

/-!
# Runs of the bounded cache

A lookup that misses is no use of its key, so what a cache holds depends on what
its earlier lookups found.  It holds the entries that were used last, as many as
there is room for; a lookup finds its key exactly if fewer other keys than that
were used since; and a larger cache that goes through the same calls holds all
entries of a smaller one, in the same order.
-/

namespace Collabswarm

variable {I K : Type} [DecidableEq I]

/-- A call of the cache. -/
inductive CacheCall (I K : Type) where
  | get (id : I)
  | set (id : I) (key : K)

namespace LRUCache

open RecentList (touch lastOccurrences lastOccurrences_append
  lastOccurrences_nodup map_lastOccurrences mem_map_lastOccurrences
  foldl_touch touch_of_notMem length_touch_of_mem touch_sublist_touch
  touch_rtake_sublist touch_rtake_eq rtake_of_length_le length_rtake_le
  rtake_append_of_le rtake_append_of_ge)

/-- The cache after a call. -/
def step (c : LRUCache I K) : CacheCall I K → LRUCache I K
  | .get id => (c.get id).2
  | .set id key => c.set id key

/-- The entry that a call uses: the one that it sets, or the one that it
finds. -/
def used (c : LRUCache I K) : CacheCall I K → Option (I × K)
  | .get id => (c.get id).1.map fun key => (id, key)
  | .set id key => some (id, key)

/-- The entries that some calls use. -/
def uses (c : LRUCache I K) : List (CacheCall I K) → List (I × K)
  | [] => []
  | call :: calls => (c.used call).toList ++ uses (c.step call) calls

/-- A new cache, after some calls.  The constructor refuses limits below one. -/
def run (limit : ℕ) (calls : List (CacheCall I K)) : LRUCache I K :=
  exec step (new (limit + 1)) calls

/-- The entries that some calls of a new cache use. -/
def runUses (limit : ℕ) (calls : List (CacheCall I K)) : List (I × K) :=
  (new (limit + 1)).uses calls

/-! ## One call -/

/-- The limit is positive and not exceeded. -/
structure Bounded (c : LRUCache I K) : Prop where
  pos : 0 < c.maxSize
  size_le : c.map.entries.length ≤ c.maxSize

theorem get?_eq_none_iff (map : InsertionMap I K) (id : I) :
    map.get? id = none ↔ id ∉ map.entries.map Prod.fst := by
  rw [← Option.not_isSome_iff_eq_none, ← map.mem_keys_iff, InsertionMap.keys]

theorem entries_erase (map : InsertionMap I K) (id : I) :
    (map.erase id).entries =
      map.entries.eraseP fun e => decide (e.1 = id) := by
  obtain ⟨entries, hnodup⟩ := map
  simp only [InsertionMap.erase]
  induction entries with
  | nil => rfl
  | cons e entries ih =>
      rw [List.map_cons, List.nodup_cons] at hnodup
      by_cases he : e.1 = id
      · rw [List.filter_cons_of_neg (by simpa using he),
          List.eraseP_cons_of_pos (by simpa using he)]
        apply List.filter_eq_self.2
        intro e' he'
        have hne : e'.1 ≠ id := by
          rintro rfl
          exact hnodup.1 (he ▸ List.mem_map_of_mem he')
        simpa using hne
      · rw [List.filter_cons_of_pos (by simpa using he),
          List.eraseP_cons_of_neg (by simpa using he), ih hnodup.2]

theorem entries_set_of_notMem {map : InsertionMap I K} {id : I} (key : K)
    (h : id ∉ map.entries.map Prod.fst) :
    (map.set id key).entries = map.entries ++ [(id, key)] :=
  InsertionMap.setEntries_of_fresh h

/-- An entry that is deleted and set again is last. -/
theorem entries_erase_set (map : InsertionMap I K) (id : I) (key : K) :
    ((map.erase id).set id key).entries =
      touch Prod.fst map.entries (id, key) := by
  rw [entries_set_of_notMem, entries_erase, touch]
  have hkeys := map.keys_erase id
  rw [InsertionMap.keys] at hkeys
  rw [hkeys]
  simp

/-- A key that is set is the last of the entries that fit. -/
theorem entries_set {c : LRUCache I K} (hc : c.Bounded) (id : I) (key : K) :
    (c.set id key).map.entries =
      (touch Prod.fst c.map.entries (id, key)).rtake c.maxSize := by
  have hsize := hc.size_le
  rw [set]
  by_cases hmem : id ∈ c.map.entries.map Prod.fst
  · have hsome : (c.map.get? id).isSome :=
      c.map.mem_keys_iff.1 hmem
    rw [if_pos hsome, entries_erase_set, rtake_of_length_le]
    rw [length_touch_of_mem Prod.fst hmem]
    exact hsize
  · have hnone := (get?_eq_none_iff c.map id).2 hmem
    rw [hnone, touch_of_notMem Prod.fst hmem]
    simp only [Option.isSome_none, Bool.false_eq_true, if_false]
    by_cases hfull : c.maxSize ≤ c.map.size
    · rw [if_pos hfull]
      -- the first entry makes room
      obtain ⟨⟨entries, hnodup⟩, maxSize⟩ := c
      obtain - | ⟨e, entries⟩ := entries
      · exact absurd (hc.pos.trans_le hfull) (Nat.lt_irrefl 0)
      have hlength : maxSize = entries.length + 1 :=
        Nat.le_antisymm hfull hsize
      have herase : InsertionMap.entries (InsertionMap.erase
          ⟨e :: entries, hnodup⟩ e.1) = entries := by
        rw [entries_erase, List.eraseP_cons_of_pos (by simp)]
      have hnotMem : id ∉ entries.map Prod.fst := fun h =>
        hmem (List.mem_cons_of_mem _ h)
      simp only [InsertionMap.keys, List.map_cons, List.head?_cons]
      rw [entries_set_of_notMem key (by rwa [herase]), herase, hlength,
        List.rtake_concat_succ, List.rtake, List.length_cons,
        Nat.add_sub_cancel_left, List.drop_succ_cons, List.drop_zero]
    · rw [if_neg hfull, entries_set_of_notMem key hmem, rtake_of_length_le]
      rw [InsertionMap.size] at hfull
      rw [List.length_append, List.length_singleton]
      omega

/-- A lookup that finds a key puts it last. -/
theorem entries_get {c : LRUCache I K} (hc : c.Bounded) {id : I} {key : K}
    (h : c.map.get? id = some key) :
    (c.get id).2.map.entries =
      (touch Prod.fst c.map.entries (id, key)).rtake c.maxSize := by
  have hmem : id ∈ c.map.entries.map Prod.fst :=
    c.map.mem_keys_iff.2 (by rw [h]; rfl)
  have hsize := hc.size_le
  rw [get, h]
  simp only []
  rw [entries_erase_set, rtake_of_length_le]
  rw [length_touch_of_mem Prod.fst hmem]
  exact hsize

/-- A lookup that misses changes nothing. -/
theorem get_of_none {c : LRUCache I K} {id : I} (h : c.map.get? id = none) :
    (c.get id).2 = c := by
  rw [get, h]

@[simp] theorem maxSize_step (c : LRUCache I K) (call : CacheCall I K) :
    (c.step call).maxSize = c.maxSize := by
  cases call with
  | get id => exact maxSize_get c id
  | set id key => exact maxSize_set c id key

/-- A call touches the entry that it uses. -/
theorem entries_step {c : LRUCache I K} (hc : c.Bounded)
    (call : CacheCall I K) :
    (c.step call).map.entries = (c.used call).toList.foldl
      (fun recent e => (touch Prod.fst recent e).rtake c.maxSize)
      c.map.entries := by
  cases call with
  | get id =>
      rw [step, used, get_fst]
      rcases hget : c.map.get? id with _ | key
      · rw [get_of_none hget]
        rfl
      · exact entries_get hc hget
  | set id key => exact entries_set hc id key

theorem Bounded.step {c : LRUCache I K} (hc : c.Bounded)
    (call : CacheCall I K) : (c.step call).Bounded := by
  refine ⟨by simpa using hc.pos, ?_⟩
  rw [entries_step hc, maxSize_step]
  rcases c.used call with _ | e
  · exact hc.size_le
  · exact length_rtake_le _ _

omit [DecidableEq I] in
theorem bounded_new (limit : ℕ) :
    (new (limit + 1) : LRUCache I K).Bounded :=
  ⟨Nat.succ_pos limit, Nat.zero_le _⟩

/-! ## Whole runs -/

theorem entries_exec {c : LRUCache I K} (hc : c.Bounded)
    (calls : List (CacheCall I K)) :
    (exec step c calls).map.entries = (c.uses calls).foldl
      (fun recent e => (touch Prod.fst recent e).rtake c.maxSize)
      c.map.entries := by
  induction calls generalizing c with
  | nil => rfl
  | cons call calls ih =>
      rw [exec_cons, uses, List.foldl_append, ih (hc.step call),
        entries_step hc, maxSize_step]

theorem entries_run (limit : ℕ) (calls : List (CacheCall I K)) :
    (run limit calls).map.entries =
      (lastOccurrences Prod.fst (runUses limit calls)).rtake (limit + 1) := by
  rw [run, entries_exec (bounded_new limit), runUses, ← foldl_touch]
  rfl

/-- A key that was used is found if fewer others than fit were used since. -/
theorem get?_run_of_used {limit : ℕ} {calls : List (CacheCall I K)}
    {before after : List (I × K)} {id : I} {key : K}
    (huses : runUses limit calls = before ++ (id, key) :: after)
    (hlast : id ∉ after.map Prod.fst) :
    (run limit calls).map.get? id =
      if (after.map Prod.fst).dedup.length ≤ limit then some key else none := by
  have hmap : (run limit calls).map.get? id =
      (run limit calls).map.entries.lookup id := rfl
  have hlength : (lastOccurrences Prod.fst after).length =
      (after.map Prod.fst).dedup.length := by
    rw [← map_lastOccurrences, List.length_map]
  rw [hmap, ← hlength]
  have hnodup := (run limit calls).map.nodup
  rw [entries_run, huses, lastOccurrences_append, lastOccurrences,
    if_neg hlast] at hnodup ⊢
  split_ifs with hle
  · apply InsertionMap.lookup_of_mem hnodup
    rw [rtake_append_of_ge (Nat.succ_le_succ hle)]
    exact List.mem_append_right _ List.mem_cons_self
  · rw [List.append_cons, rtake_append_of_le (Nat.lt_of_not_le hle),
      List.lookup_eq_none_iff]
    intro e he
    have hmem : e ∈ lastOccurrences Prod.fst after := List.drop_subset _ _ he
    have hne : id ≠ e.1 := by
      rintro rfl
      exact hlast ((mem_map_lastOccurrences Prod.fst).1
        (List.mem_map_of_mem hmem))
    simpa using hne

/-- A key that was never used is not found. -/
theorem get?_run_of_unused {limit : ℕ} {calls : List (CacheCall I K)} {id : I}
    (h : id ∉ (runUses limit calls).map Prod.fst) :
    (run limit calls).map.get? id = none := by
  rw [get?_eq_none_iff, entries_run]
  intro hmem
  obtain ⟨e, he, rfl⟩ := List.mem_map.1 hmem
  exact h ((mem_map_lastOccurrences Prod.fst).1
    (List.mem_map_of_mem (List.drop_subset _ _ he)))

/-! ## A larger cache -/

/-- A larger cache that holds the entries of a smaller one, and no others while
the smaller one has room. -/
structure Includes (c' c : LRUCache I K) : Prop where
  maxSize_le : c.maxSize ≤ c'.maxSize
  sublist : c.map.entries.Sublist c'.map.entries
  same : c.map.entries.length < c.maxSize → c.map.entries = c'.map.entries

/-- What the smaller cache finds, the larger one finds. -/
theorem Includes.get? {c c' : LRUCache I K} (h : c'.Includes c) {id : I}
    {key : K} (hget : c.map.get? id = some key) :
    c'.map.get? id = some key :=
  InsertionMap.lookup_of_mem c'.map.nodup
    (h.sublist.subset (InsertionMap.mem_of_lookup hget))

/-- Both caches use an entry. -/
theorem Includes.touch {c c' d d' : LRUCache I K} (h : c'.Includes c)
    (hc' : c'.Bounded) (e : I × K) (hmax : d.maxSize = c.maxSize)
    (hmax' : d'.maxSize = c'.maxSize)
    (hd : d.map.entries =
      (RecentList.touch Prod.fst c.map.entries e).rtake c.maxSize)
    (hd' : d'.map.entries =
      (RecentList.touch Prod.fst c'.map.entries e).rtake c'.maxSize) :
    d'.Includes d := by
  constructor
  · rw [hmax, hmax']
    exact h.maxSize_le
  · rw [hd, hd']
    exact touch_rtake_sublist Prod.fst h.sublist h.maxSize_le hc'.size_le
      h.same e
  · rw [hmax, hd, hd']
    exact touch_rtake_eq Prod.fst h.maxSize_le h.same e

/-- The larger cache alone finds a key. -/
theorem Includes.get_of_none {c c' : LRUCache I K} (h : c'.Includes c)
    (hc' : c'.Bounded) {id : I} (hnone : c.map.get? id = none) :
    (c'.get id).2.Includes c := by
  rcases hget : c'.map.get? id with _ | key
  · rw [LRUCache.get_of_none hget]
    exact h
  have hmem : id ∈ c'.map.entries.map Prod.fst :=
    c'.map.mem_keys_iff.2 (by rw [hget]; rfl)
  have hentries := entries_get hc' hget
  rw [rtake_of_length_le ((length_touch_of_mem Prod.fst hmem).trans_le
    hc'.size_le)] at hentries
  constructor
  · rw [maxSize_get]
    exact h.maxSize_le
  · rw [hentries]
    have hnotMem := (get?_eq_none_iff c.map id).1 hnone
    have hsub := touch_sublist_touch Prod.fst h.sublist (id, key)
    rw [touch_of_notMem Prod.fst hnotMem] at hsub
    exact (List.sublist_append_left _ _).trans hsub
  · intro hroom
    have hsame := h.same hroom
    rw [get?_eq_none_iff, hsame] at hnone
    exact absurd hmem hnone

theorem Includes.step {c c' : LRUCache I K} (h : c'.Includes c)
    (hc : c.Bounded) (hc' : c'.Bounded) (call : CacheCall I K) :
    (c'.step call).Includes (c.step call) := by
  cases call with
  | get id =>
      rcases hget : c.map.get? id with _ | key
      · have hstay : c.step (.get id) = c := LRUCache.get_of_none hget
        rw [hstay]
        exact h.get_of_none hc' hget
      · exact h.touch hc' (id, key) (maxSize_get c id) (maxSize_get c' id)
          (entries_get hc hget) (entries_get hc' (h.get? hget))
  | set id key =>
      exact h.touch hc' (id, key) (maxSize_set c id key)
        (maxSize_set c' id key) (entries_set hc id key)
        (entries_set hc' id key)

theorem Includes.exec {c c' : LRUCache I K} (h : c'.Includes c)
    (hc : c.Bounded) (hc' : c'.Bounded) (calls : List (CacheCall I K)) :
    (exec LRUCache.step c' calls).Includes (exec LRUCache.step c calls) := by
  induction calls generalizing c c' with
  | nil => exact h
  | cons call calls ih =>
      rw [exec_cons, exec_cons]
      exact ih (h.step hc hc' call) (hc.step call) (hc'.step call)

theorem includes_run {limit limit' : ℕ} (hle : limit ≤ limit')
    (calls : List (CacheCall I K)) :
    (run limit' calls).Includes (run limit calls) := by
  apply Includes.exec _ (bounded_new limit) (bounded_new limit')
  exact ⟨Nat.succ_le_succ hle, List.Sublist.refl _, fun _ => rfl⟩

/-- After any calls a cache holds the last of the entries that the calls used,
most recent last; it finds the key of a used entry exactly if at most `limit`
other keys were used since, and no key that was not used; and every larger
cache, after the same calls, holds its entries in the same order. -/
theorem holds_recent_uses (limit : ℕ) (calls : List (CacheCall I K)) :
    (run limit calls).map.entries =
        (lastOccurrences Prod.fst (runUses limit calls)).rtake (limit + 1) ∧
      (∀ before after id key,
        runUses limit calls = before ++ (id, key) :: after →
        id ∉ after.map Prod.fst →
        ((run limit calls).get id).1 =
          if (after.map Prod.fst).dedup.length ≤ limit then some key
          else none) ∧
      (∀ id, id ∉ (runUses limit calls).map Prod.fst →
        ((run limit calls).get id).1 = none) ∧
      ∀ limit', limit ≤ limit' →
        (run limit calls).map.entries.Sublist
          (run limit' calls).map.entries := by
  refine ⟨entries_run limit calls, ?_, ?_, ?_⟩
  · intro before after id key huses hlast
    rw [get_fst]
    exact get?_run_of_used huses hlast
  · intro id hunused
    rw [get_fst]
    exact get?_run_of_unused hunused
  · intro limit' hle
    exact (includes_run hle calls).sublist

end LRUCache

end Collabswarm
