import Collabswarm.Support.InsertionMap

/-!
# The bounded cache of keys

`lru-cache.ts`: a map in insertion order whose first entry is the least
recently used one.  A hit moves its entry to the end, and setting a new key in
a full cache evicts the first entry.
-/

namespace Collabswarm

/-- A cache that holds at most `maxSize` entries. -/
structure LRUCache (I K : Type) where
  map : InsertionMap I K
  maxSize : ℕ

namespace LRUCache

variable {I K : Type} [DecidableEq I]

/-- An empty cache; the constructor's default size is 1000. -/
def new (maxSize : ℕ) : LRUCache I K := ⟨.empty, maxSize⟩

/-- The value of a key; a hit becomes the most recently used entry. -/
def get (c : LRUCache I K) (id : I) : Option K × LRUCache I K :=
  match c.map.get? id with
  | some key => (some key, { c with map := (c.map.erase id).set id key })
  | none => (none, c)

/-- Set a key, evicting the first entry when a new key meets a full cache. -/
def set (c : LRUCache I K) (id : I) (key : K) : LRUCache I K :=
  if (c.map.get? id).isSome then
    { c with map := (c.map.erase id).set id key }
  else if c.maxSize ≤ c.map.size then
    match c.map.keys.head? with
    | some firstKey => { c with map := (c.map.erase firstKey).set id key }
    | none => { c with map := c.map.set id key }
  else { c with map := c.map.set id key }

/-- The key that setting `id` evicts. -/
def evicted (c : LRUCache I K) (id : I) : Option I :=
  if (c.map.get? id).isSome then none
  else if c.maxSize ≤ c.map.size then c.map.keys.head?
  else none

/-- Reading changes the order of the entries only. -/
@[simp] theorem get?_get (c : LRUCache I K) (id id' : I) :
    (c.get id).2.map.get? id' = c.map.get? id' := by
  rw [get]
  split
  · rename_i key hkey
    simp only [InsertionMap.get?_set, InsertionMap.get?_erase]
    by_cases h : id' = id
    · simp [h, hkey]
    · simp [h]
  · rfl

@[simp] theorem get_fst (c : LRUCache I K) (id : I) :
    (c.get id).1 = c.map.get? id := by
  rw [get]
  split
  · rename_i key hkey
    exact hkey.symm
  · rename_i hkey
    exact hkey.symm

/-- What a cache holds after a key is set. -/
theorem get?_set (c : LRUCache I K) (id id' : I) (key : K) :
    (c.set id key).map.get? id' =
      if id' = id then some key
      else if c.evicted id = some id' then none
      else c.map.get? id' := by
  unfold set evicted
  by_cases hsome : (c.map.get? id).isSome
  · simp only [hsome, if_true]
    by_cases h : id' = id
    · simp [h]
    · simp [h, InsertionMap.get?_set, InsertionMap.get?_erase]
  · simp only [hsome, Bool.false_eq_true, if_false]
    by_cases hfull : c.maxSize ≤ c.map.size
    · simp only [hfull, if_true]
      rcases hhead : c.map.keys.head? with _ | firstKey
      · by_cases h : id' = id
        · simp [h]
        · simp [h, InsertionMap.get?_set]
      · by_cases h : id' = id
        · simp [h]
        · simp only [h, if_false, Option.some.injEq, InsertionMap.get?_set,
            InsertionMap.get?_erase, eq_comm]
    · simp only [hfull, if_false]
      by_cases h : id' = id
      · simp [h]
      · simp [h, InsertionMap.get?_set]

/-- Reading keeps the size limit. -/
@[simp] theorem maxSize_get (c : LRUCache I K) (id : I) :
    (c.get id).2.maxSize = c.maxSize := by
  rw [get]
  split <;> rfl

@[simp] theorem maxSize_set (c : LRUCache I K) (id : I) (key : K) :
    (c.set id key).maxSize = c.maxSize := by
  rw [set]
  split
  · rfl
  · split
    · split <;> rfl
    · rfl

/-- A cache that holds only ids of a list no longer than its limit evicts
nothing when another id of the list is set. -/
theorem evicted_of_subset {c : LRUCache I K} {ids : List I}
    (hsub : ∀ id, (c.map.get? id).isSome → id ∈ ids)
    (hlength : ids.length ≤ c.maxSize) {id : I} (hid : id ∈ ids) :
    c.evicted id = none := by
  rw [evicted]
  by_cases hsome : (c.map.get? id).isSome
  · rw [if_pos hsome]
  · rw [if_neg hsome, if_neg]
    have hnodup : (id :: c.map.keys).Nodup := by
      rw [List.nodup_cons, c.map.mem_keys_iff]
      exact ⟨hsome, c.map.nodup⟩
    have hkeys : id :: c.map.keys ⊆ ids := by
      intro x hx
      rcases List.mem_cons.1 hx with rfl | hx
      · exact hid
      · exact hsub x (c.map.mem_keys_iff.1 hx)
    have hle := (hnodup.subperm hkeys).length_le
    rw [List.length_cons, c.map.length_keys] at hle
    omega

end LRUCache

end Collabswarm
