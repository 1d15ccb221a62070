import Mathlib.Tactic

/-!
# Maps that remember the order of insertion

A finite map whose entries are listed in the order in which their keys were
first inserted.  Setting a key that is present keeps its place, setting a new
key appends it, and a key that is deleted and set again moves to the end.
-/

namespace Collabswarm

/-- A finite map with distinct keys, listed in insertion order. -/
structure InsertionMap (K V : Type*) where
  entries : List (K × V)
  nodup : (entries.map Prod.fst).Nodup

namespace InsertionMap

variable {K V : Type*} [DecidableEq K]

/-- Replace the value of the first entry for `k`, or append an entry. -/
def setEntries (k : K) (v : V) : List (K × V) → List (K × V)
  | [] => [(k, v)]
  | e :: es => if e.1 = k then (k, v) :: es else e :: setEntries k v es

omit [DecidableEq K] in
theorem map_fst_filter_sublist (p : K × V → Bool) (es : List (K × V)) :
    ((es.filter p).map Prod.fst).Sublist (es.map Prod.fst) :=
  List.filter_sublist.map _

theorem mem_map_fst_setEntries {k k' : K} {v : V} {es : List (K × V)} :
    k' ∈ (setEntries k v es).map Prod.fst ↔
      k' = k ∨ k' ∈ es.map Prod.fst := by
  induction es with
  | nil => simp [setEntries]
  | cons e es ih =>
      by_cases he : e.1 = k
      · simp [setEntries, he]
      · simp only [setEntries, if_neg he, List.map_cons, List.mem_cons, ih]
        tauto

theorem nodup_setEntries (k : K) (v : V) {es : List (K × V)}
    (hes : (es.map Prod.fst).Nodup) :
    ((setEntries k v es).map Prod.fst).Nodup := by
  induction es with
  | nil => simp [setEntries]
  | cons e es ih =>
      simp only [List.map_cons, List.nodup_cons] at hes
      by_cases he : e.1 = k
      · subst he
        simpa [setEntries] using hes
      · simp only [setEntries, if_neg he, List.map_cons, List.nodup_cons]
        refine ⟨?_, ih hes.2⟩
        rw [mem_map_fst_setEntries]
        rintro (heq | hmem)
        · exact he heq
        · exact hes.1 hmem

theorem mem_setEntries {k : K} {v : V} {es : List (K × V)} {e : K × V}
    (h : e ∈ setEntries k v es) : e = (k, v) ∨ e ∈ es := by
  induction es with
  | nil => exact Or.inl (List.mem_singleton.1 h)
  | cons e₀ es ih =>
      rw [setEntries] at h
      split at h
      · exact (List.mem_cons.1 h).imp id (List.mem_cons_of_mem _)
      · rcases List.mem_cons.1 h with rfl | h
        · exact Or.inr List.mem_cons_self
        · exact (ih h).imp id (List.mem_cons_of_mem _)

/-- A new key is appended. -/
theorem setEntries_of_fresh {k : K} {v : V} {es : List (K × V)}
    (h : k ∉ es.map Prod.fst) : setEntries k v es = es ++ [(k, v)] := by
  induction es with
  | nil => rfl
  | cons e es ih =>
      rw [List.map_cons, List.mem_cons, not_or] at h
      rw [setEntries, if_neg (Ne.symm h.1), ih h.2]
      rfl

/-- Entries with distinct keys are appended in their order. -/
theorem foldl_setEntries_of_nodup (es acc : List (K × V))
    (h : ((acc ++ es).map Prod.fst).Nodup) :
    es.foldl (fun acc e => setEntries e.1 e.2 acc) acc = acc ++ es := by
  induction es generalizing acc with
  | nil => simp
  | cons e es ih =>
      have hfresh : e.1 ∉ acc.map Prod.fst := by
        rw [List.map_append, List.map_cons] at h
        have hdisjoint := (List.nodup_append.1 h).2.2
        intro hmem
        exact hdisjoint _ hmem _ List.mem_cons_self rfl
      rw [List.foldl_cons, setEntries_of_fresh hfresh, ih]
      · simp
      · simpa using h

/-- The map without entries. -/
def empty : InsertionMap K V := ⟨[], List.nodup_nil⟩

/-- The value of a key. -/
def get? (m : InsertionMap K V) (k : K) : Option V := m.entries.lookup k

/-- Set the value of a key. -/
def set (m : InsertionMap K V) (k : K) (v : V) : InsertionMap K V :=
  ⟨setEntries k v m.entries, nodup_setEntries k v m.nodup⟩

/-- Delete a key. -/
def erase (m : InsertionMap K V) (k : K) : InsertionMap K V :=
  ⟨m.entries.filter (fun e => e.1 ≠ k),
    m.nodup.sublist (map_fst_filter_sublist _ _)⟩

/-- Change every value in place. -/
def mapValues (f : K → V → V) (m : InsertionMap K V) : InsertionMap K V :=
  ⟨m.entries.map fun e => (e.1, f e.1 e.2), by
    simpa [Function.comp_def] using m.nodup⟩

/-- The keys in insertion order. -/
def keys (m : InsertionMap K V) : List K := m.entries.map Prod.fst

/-- The number of entries. -/
def size (m : InsertionMap K V) : ℕ := m.entries.length

/-! ## Looking up -/

@[simp] theorem get?_empty (k : K) : (empty : InsertionMap K V).get? k = none :=
  rfl

theorem lookup_cons_ite [BEq K] [LawfulBEq K] (k : K) (e : K × V)
    (es : List (K × V)) :
    (e :: es).lookup k = if k = e.1 then some e.2 else es.lookup k := by
  rw [List.lookup_cons]
  by_cases hk : k = e.1
  · simp [hk]
  · have hbeq : (k == e.1) = false := by simpa using hk
    simp [hk, hbeq]

omit [DecidableEq K] in
/-- What is found is an entry. -/
theorem mem_of_lookup [BEq K] [LawfulBEq K] {k : K} {v : V}
    {es : List (K × V)} (h : es.lookup k = some v) : (k, v) ∈ es := by
  obtain ⟨before, after, hes, -⟩ := List.lookup_eq_some_iff.1 h
  rw [hes]
  exact List.mem_append_right _ List.mem_cons_self

/-- Among distinct keys every entry is found. -/
theorem lookup_of_mem [BEq K] [LawfulBEq K] {k : K} {v : V}
    {es : List (K × V)} (hes : (es.map Prod.fst).Nodup) (h : (k, v) ∈ es) :
    es.lookup k = some v := by
  induction es with
  | nil => cases h
  | cons e es ih =>
      rw [List.map_cons, List.nodup_cons] at hes
      rw [lookup_cons_ite]
      rcases List.mem_cons.1 h with rfl | h
      · exact if_pos rfl
      · have hne : k ≠ e.1 := by
          rintro rfl
          exact hes.1 (List.mem_map.2 ⟨_, h, rfl⟩)
        rw [if_neg hne]
        exact ih hes.2 h

theorem lookup_setEntries [BEq K] [LawfulBEq K] (k k' : K) (v : V)
    (es : List (K × V)) :
    (setEntries k v es).lookup k' =
      if k' = k then some v else es.lookup k' := by
  induction es with
  | nil => simp [setEntries, lookup_cons_ite]
  | cons e es ih =>
      by_cases he : e.1 = k
      · rw [setEntries, if_pos he, lookup_cons_ite, lookup_cons_ite, he]
        by_cases hk : k' = k
        · simp [hk]
        · simp [hk]
      · simp only [setEntries, if_neg he, lookup_cons_ite, ih]
        by_cases hk : k' = e.1
        · simp [hk, he]
        · simp [hk]

/-- Setting a key to its value changes nothing. -/
theorem setEntries_self [BEq K] [LawfulBEq K] {k : K} {v : V}
    {es : List (K × V)}
    (h : es.lookup k = some v) : setEntries k v es = es := by
  induction es with
  | nil => cases h
  | cons e es ih =>
      rw [lookup_cons_ite] at h
      by_cases he : e.1 = k
      · rw [if_pos he.symm] at h
        rw [setEntries, if_pos he, ← he, ← Option.some.inj h]
      · rw [if_neg (Ne.symm he)] at h
        rw [setEntries, if_neg he, ih h]

theorem get?_set (m : InsertionMap K V) (k k' : K) (v : V) :
    (m.set k v).get? k' = if k' = k then some v else m.get? k' :=
  lookup_setEntries k k' v m.entries

@[simp] theorem get?_set_self (m : InsertionMap K V) (k : K) (v : V) :
    (m.set k v).get? k = some v := by
  rw [get?_set, if_pos rfl]

theorem get?_set_of_ne (m : InsertionMap K V) {k k' : K} (v : V)
    (h : k' ≠ k) : (m.set k v).get? k' = m.get? k' := by
  rw [get?_set, if_neg h]

theorem get?_erase (m : InsertionMap K V) (k k' : K) :
    (m.erase k).get? k' = if k' = k then none else m.get? k' := by
  obtain ⟨es, hes⟩ := m
  simp only [get?, erase]
  clear hes
  induction es with
  | nil => simp
  | cons e es ih =>
      by_cases he : e.1 = k
      · rw [List.filter_cons_of_neg (by simpa using he), ih, lookup_cons_ite,
          he]
        split <;> simp_all
      · rw [List.filter_cons_of_pos (by simpa using he), lookup_cons_ite, ih,
          lookup_cons_ite]
        by_cases hk : k' = e.1
        · simp [hk, he]
        · simp [hk]

theorem get?_mapValues (f : K → V → V) (m : InsertionMap K V) (k : K) :
    (m.mapValues f).get? k = (m.get? k).map (f k) := by
  obtain ⟨es, hes⟩ := m
  simp only [get?, mapValues]
  clear hes
  induction es with
  | nil => rfl
  | cons e es ih =>
      rw [List.map_cons, lookup_cons_ite, lookup_cons_ite, ih]
      by_cases hk : k = e.1
      · simp [hk]
      · simp [hk]

theorem mem_entries_iff (m : InsertionMap K V) {k : K} {v : V} :
    (k, v) ∈ m.entries ↔ m.get? k = some v := by
  obtain ⟨es, hes⟩ := m
  simp only [get?]
  induction es with
  | nil => simp
  | cons e es ih =>
      obtain ⟨ek, ev⟩ := e
      simp only [List.map_cons, List.nodup_cons] at hes
      by_cases hk : k = ek
      · subst hk
        have hnot : (k, v) ∉ es := fun hmem =>
          hes.1 (List.mem_map_of_mem hmem)
        simp [hnot, eq_comm]
      · simp [hk, lookup_cons_ite, ih hes.2]

theorem mem_keys_iff (m : InsertionMap K V) {k : K} :
    k ∈ m.keys ↔ (m.get? k).isSome := by
  rw [Option.isSome_iff_exists, keys, List.mem_map]
  constructor
  · rintro ⟨⟨k', v⟩, hmem, rfl⟩
    exact ⟨v, m.mem_entries_iff.1 hmem⟩
  · rintro ⟨v, hv⟩
    exact ⟨(k, v), m.mem_entries_iff.2 hv, rfl⟩

@[simp] theorem mem_keys_set (m : InsertionMap K V) {k k' : K} {v : V} :
    k' ∈ (m.set k v).keys ↔ k' = k ∨ k' ∈ m.keys :=
  mem_map_fst_setEntries

theorem keys_erase (m : InsertionMap K V) (k : K) :
    (m.erase k).keys = m.keys.filter (· ≠ k) := by
  rw [keys, keys, erase, List.filter_map]
  rfl

omit [DecidableEq K] in
@[simp] theorem length_keys (m : InsertionMap K V) : m.keys.length = m.size :=
  List.length_map _

/-- Deleting a key that is present leaves one entry less. -/
theorem size_erase_of_mem (m : InsertionMap K V) {k : K} (h : k ∈ m.keys) :
    (m.erase k).size + 1 = m.size := by
  have hnodup : m.keys.Nodup := m.nodup
  have hkeys : (m.erase k).keys = m.keys.erase k := by
    rw [keys_erase, hnodup.erase_eq_filter k]
    apply List.filter_congr
    intro x _
    by_cases hx : x = k <;> simp [hx]
  have hlength : (m.erase k).keys.length = m.keys.length - 1 := by
    rw [hkeys, List.length_erase_of_mem h]
  rw [length_keys, length_keys] at hlength
  have hpos := List.length_pos_of_mem h
  rw [length_keys] at hpos
  omega

/-- A new key is listed last. -/
theorem keys_set_of_fresh (m : InsertionMap K V) {k : K} (v : V)
    (h : k ∉ m.keys) : (m.set k v).keys = m.keys ++ [k] := by
  have hentries : (m.set k v).entries = m.entries ++ [(k, v)] :=
    setEntries_of_fresh h
  rw [keys, hentries, List.map_append]
  rfl

/-- Setting a key that is present keeps the order of the keys. -/
theorem keys_set_of_mem (m : InsertionMap K V) {k : K} (v : V)
    (h : k ∈ m.keys) : (m.set k v).keys = m.keys := by
  obtain ⟨es, hes⟩ := m
  simp only [keys, set] at h ⊢
  clear hes
  induction es with
  | nil => cases h
  | cons e es ih =>
      by_cases he : e.1 = k
      · simp [setEntries, he]
      · rw [setEntries, if_neg he, List.map_cons, List.map_cons, ih]
        exact (List.mem_cons.1 h).resolve_left (Ne.symm he)

/-- The entries are the keys with their values. -/
theorem entries_eq_filterMap (m : InsertionMap K V) :
    m.entries = m.keys.filterMap fun k => (m.get? k).map (k, ·) := by
  rw [keys, List.filterMap_map]
  symm
  calc m.entries.filterMap ((fun k => (m.get? k).map (k, ·)) ∘ Prod.fst)
      = m.entries.filterMap some := by
        apply List.filterMap_congr
        intro e he
        rw [Function.comp_apply, m.mem_entries_iff.1 he]
        rfl
    _ = m.entries := List.filterMap_some

/-- Maps with the same keys in the same order and the same values are
equal. -/
theorem eq_of_keys_eq {m m' : InsertionMap K V} (hkeys : m.keys = m'.keys)
    (hget : ∀ k, m.get? k = m'.get? k) : m = m' := by
  have hentries : m.entries = m'.entries := by
    rw [entries_eq_filterMap m, entries_eq_filterMap m', hkeys]
    simp only [hget]
  cases m
  cases m'
  cases hentries
  rfl

end InsertionMap

end Collabswarm
