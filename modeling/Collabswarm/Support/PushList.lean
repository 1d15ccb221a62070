import Mathlib.Data.List.Lex
import Mathlib.Data.List.Sort
import Collabswarm.Support.CausalLog

/-!
# A replicated list that is only appended to

The operations insert values, each behind an element that is given by its chain
of origins.  The visible list is the depth-first traversal of the tree of
origins with siblings in the order of their numbers, that is the applied
operations sorted by their chains.
-/

namespace Collabswarm

variable {α : Type*}

/-- What is inserted: the chain of the element it stands behind, and the
value. -/
structure Insertion (α : Type*) where
  origin : List ℕ
  content : α
deriving DecidableEq

/-- An insertion into the list. -/
abbrev PushOp (α : Type*) := CausalOp ℕ (Insertion α)

/-- A replica of the list. -/
abbrev PushDoc (α : Type*) := CausalLog ℕ (Insertion α)

namespace CausalOp

/-- The inserted value. -/
def content (op : PushOp α) : α := op.body.content

/-- The chain of an operation. -/
def position (op : PushOp α) : List ℕ := op.body.origin ++ [op.id]

theorem id_eq_of_position_eq {op op' : PushOp α}
    (h : op.position = op'.position) : op.id = op'.id := by
  have hlast := congrArg List.getLast? h
  simpa [position] using hlast

/-- The order of the visible list. -/
def le (op op' : PushOp α) : Prop := op.position ≤ op'.position

instance : DecidableRel (le (α := α)) :=
  fun op op' => inferInstanceAs (Decidable (op.position ≤ op'.position))

instance : Std.Total (le (α := α)) :=
  ⟨fun op op' => le_total op.position op'.position⟩

instance : IsTrans (PushOp α) le :=
  ⟨fun _ _ _ => le_trans⟩

end CausalOp

namespace CausalLog

/-- The applied operations in visible order. -/
def visible (d : PushDoc α) : List (PushOp α) :=
  d.log.insertionSort CausalOp.le

/-- The visible list. -/
def contents (d : PushDoc α) : List α := d.visible.map CausalOp.content

/-- The chain of the last visible element. -/
def lastPosition (d : PushDoc α) : List ℕ :=
  (d.visible.getLast?.map CausalOp.position).getD []

/-- The operation that inserts a value at the end. -/
def pushOp (d : PushDoc α) (id : ℕ) (deps : List ℕ) (content : α) :
    PushOp α :=
  ⟨id, deps, d.lastPosition, content⟩

/-! ## The visible list -/

theorem visible_perm (d : PushDoc α) : d.visible.Perm d.log :=
  List.perm_insertionSort _ _

@[simp] theorem mem_visible {d : PushDoc α} {op : PushOp α} :
    op ∈ d.visible ↔ op ∈ d.log :=
  d.visible_perm.mem_iff

theorem mem_contents {d : PushDoc α} {a : α} :
    a ∈ d.contents ↔ ∃ op ∈ d.log, op.content = a := by
  simp [contents]

/-- With unique numbers the visible list is strictly sorted. -/
theorem visible_sorted {d : PushDoc α} (h : (d.log.map CausalOp.id).Nodup) :
    d.visible.Pairwise fun op op' => op.position < op'.position := by
  have hle : d.visible.Pairwise CausalOp.le :=
    List.pairwise_insertionSort _ _
  have hids : (d.visible.map CausalOp.id).Nodup :=
    ((d.visible_perm.map _).nodup_iff).2 h
  have hne : d.visible.Pairwise fun op op' => op.id ≠ op'.id :=
    List.pairwise_map.1 hids
  refine (hle.and hne).imp ?_
  rintro op op' ⟨hle, hne⟩
  refine lt_of_le_of_ne hle ?_
  intro heq
  exact hne (CausalOp.id_eq_of_position_eq heq)

/-- In the visible list a smaller chain stands further to the front. -/
theorem index_lt_of_position_lt {d : PushDoc α} {op op' : PushOp α}
    {i j : ℕ} (hi : d.visible[i]? = some op) (hj : d.visible[j]? = some op')
    (hlt : op.position < op'.position) : i < j := by
  by_contra hnot
  have hsorted : d.visible.Pairwise CausalOp.le :=
    List.pairwise_insertionSort _ _
  obtain ⟨hilen, hi⟩ := List.getElem?_eq_some_iff.1 hi
  obtain ⟨hjlen, hj⟩ := List.getElem?_eq_some_iff.1 hj
  rcases Nat.eq_or_lt_of_le (Nat.le_of_not_lt hnot) with heq | hji
  · subst heq
    rw [← hi, ← hj] at hlt
    exact lt_irrefl _ hlt
  · have hle := List.pairwise_iff_getElem.1 hsorted j i hjlen hilen hji
    rw [hi, hj] at hle
    exact absurd hlt (not_lt_of_ge hle)

theorem le_lastPosition {d : PushDoc α} {op : PushOp α} (hop : op ∈ d.log) :
    op.position ≤ d.lastPosition := by
  have hsorted : d.visible.Pairwise CausalOp.le :=
    List.pairwise_insertionSort _ _
  have hmem : op ∈ d.visible := mem_visible.2 hop
  rcases List.eq_nil_or_concat' d.visible with hnil | ⟨init, last, hlast⟩
  · rw [hnil] at hmem
    cases hmem
  · have hposition : d.lastPosition = last.position := by
      simp [lastPosition, hlast]
    rw [hposition]
    rw [hlast] at hmem hsorted
    rcases List.mem_append.1 hmem with hinit | heq
    · exact (List.pairwise_append.1 hsorted).2.2 op hinit last (by simp)
    · rw [List.mem_singleton.1 heq]

theorem getLast?_lastPosition (d : PushDoc α) :
    d.lastPosition.getLast? = d.visible.getLast?.map CausalOp.id := by
  rw [lastPosition]
  cases d.visible.getLast? with
  | none => rfl
  | some op => simp [CausalOp.position]

theorem lt_append_singleton (l : List ℕ) (x : ℕ) : l < l ++ [x] := by
  induction l with
  | nil => exact List.Lex.nil
  | cons y l ih => exact List.Lex.cons ih

theorem lt_position_pushOp {d : PushDoc α} {op : PushOp α} (hop : op ∈ d.log)
    (id : ℕ) (deps : List ℕ) (content : α) :
    op.position < (d.pushOp id deps content).position :=
  lt_of_le_of_lt (le_lastPosition hop) (lt_append_singleton _ id)

/-- Replicas with the same operations show the same list. -/
theorem visible_eq_of_perm {d d' : PushDoc α}
    (h : (d.log.map CausalOp.id).Nodup) (hperm : d'.log.Perm d.log) :
    d'.visible = d.visible := by
  have h' : (d'.log.map CausalOp.id).Nodup := ((hperm.map _).nodup_iff).2 h
  refine List.Perm.eq_of_pairwise ?_ (visible_sorted h') (visible_sorted h)
    (d'.visible_perm.trans (hperm.trans d.visible_perm.symm))
  intro op op' _ _ hlt hgt
  exact absurd (lt_trans hlt hgt) (lt_irrefl _)

/-- An insertion at the end is seen at the end. -/
theorem visible_push {d : PushDoc α} {op : PushOp α}
    (h : (d.log.map CausalOp.id).Nodup) (hid : op.id ∉ d.ids)
    (hop : ∀ op' ∈ d.log, op'.position < op.position) :
    (d.push op).visible = d.visible ++ [op] := by
  have hnodup : ((d.push op).log.map CausalOp.id).Nodup := by
    rw [push, List.map_append, List.nodup_append]
    refine ⟨h, by simp, ?_⟩
    rintro x hx y hy rfl
    simp only [List.map_cons, List.map_nil, List.mem_singleton] at hy
    exact hid (hy ▸ hx)
  have hright : (d.visible ++ [op]).Pairwise
      fun op op' => op.position < op'.position := by
    rw [List.pairwise_append]
    refine ⟨visible_sorted h, List.pairwise_singleton _ _, ?_⟩
    intro op' hop' y hy
    rw [List.mem_singleton.1 hy]
    exact hop op' (mem_visible.1 hop')
  refine List.Perm.eq_of_pairwise ?_ (visible_sorted hnodup) hright
    ((visible_perm _).trans (d.visible_perm.symm.append_right _))
  intro op op' _ _ hlt hgt
  exact absurd (lt_trans hlt hgt) (lt_irrefl _)

theorem contents_push {d : PushDoc α} (h : (d.log.map CausalOp.id).Nodup)
    {id : ℕ} (hid : id ∉ d.ids) (deps : List ℕ) (content : α) :
    (d.push (d.pushOp id deps content)).contents =
      d.contents ++ [content] := by
  rw [contents, visible_push h hid
    fun op' hop' => lt_position_pushOp hop' id deps content]
  simp [contents, pushOp, CausalOp.content]

/-! ## Parts of the visible list -/

theorem getLast?_contents (d : PushDoc α) :
    d.contents.getLast? = d.visible.getLast?.map CausalOp.content := by
  rw [contents, List.getLast?_map]

/-- An element that is the last one of a list is the last one of every earlier
list that has it. -/
theorem getLast?_visible_of_subset {d d' : PushDoc α} {op : PushOp α}
    (h' : (d'.log.map CausalOp.id).Nodup) (hsub : d.log ⊆ d'.log)
    (hlast : d'.visible.getLast? = some op) (hop : op ∈ d.log) :
    d.visible.getLast? = some op := by
  have hmem : op ∈ d.visible := mem_visible.2 hop
  obtain ⟨last, hlast'⟩ := Option.isSome_iff_exists.1
    (List.getLast?_isSome.2 (List.ne_nil_of_mem hmem))
  have hlastMem : last ∈ d.log :=
    mem_visible.1 (List.mem_of_getLast? hlast')
  have hposition : d.lastPosition = last.position := by
    rw [lastPosition, hlast']
    rfl
  have hposition' : d'.lastPosition = op.position := by
    rw [lastPosition, hlast]
    rfl
  have hle : op.position ≤ last.position := hposition ▸ le_lastPosition hop
  have hge : last.position ≤ op.position :=
    hposition' ▸ le_lastPosition (hsub hlastMem)
  have hid := CausalOp.id_eq_of_position_eq (le_antisymm hle hge)
  rw [hlast', List.inj_on_of_nodup_map h' (hsub hlastMem) (hsub hop) hid.symm]

/-- What stands at or behind the first element that meets a condition. -/
theorem mem_dropWhile_visible {d : PushDoc α}
    (h : (d.log.map CausalOp.id).Nodup) {p : PushOp α → Bool}
    {op : PushOp α} :
    op ∈ d.visible.dropWhile p ↔ op ∈ d.log ∧
      ∃ first ∈ d.log, p first = false ∧ first.position ≤ op.position := by
  have hsorted := visible_sorted h
  simp only [← mem_visible (d := d)]
  generalize d.visible = l at hsorted
  induction l with
  | nil => simp
  | cons x l ih =>
      obtain ⟨hx, hl⟩ := List.pairwise_cons.1 hsorted
      rcases hpx : p x with _ | _
      · rw [List.dropWhile_cons_of_neg (by simp [hpx])]
        refine ⟨fun hop => ⟨hop, x, List.mem_cons_self, hpx, ?_⟩, And.left⟩
        rcases List.mem_cons.1 hop with rfl | hop
        · exact le_rfl
        · exact (hx op hop).le
      · rw [List.dropWhile_cons_of_pos hpx]
        refine (ih hl).trans ?_
        constructor
        · rintro ⟨hop, first, hfirst, hpfirst, hle⟩
          exact ⟨List.mem_cons_of_mem _ hop, first,
            List.mem_cons_of_mem _ hfirst, hpfirst, hle⟩
        · rintro ⟨hop, first, hfirst, hpfirst, hle⟩
          have hne : first ≠ x := by
            rintro rfl
            exact absurd hpx (by simp [hpfirst])
          have hrest : first ∈ l := List.mem_of_ne_of_mem hne hfirst
          refine ⟨?_, first, hrest, hpfirst, hle⟩
          rcases List.mem_cons.1 hop with rfl | hop
          · exact absurd (hx first hrest) (not_lt_of_ge hle)
          · exact hop

end CausalLog

end Collabswarm
