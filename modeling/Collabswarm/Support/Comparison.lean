import Mathlib.Data.List.Sort
import Mathlib.Tactic

/-!
# Comparison functions

A comparison function gives the order of two values, or nothing where its
result is not a number.  On the values for which it is a total preorder,
sorting does not depend on the order of the list, up to values that compare
equal.

A comparison may order values of one kind by an order of their own and values of
different kinds by a text.  It is a total preorder exactly if no text of another
kind lies between two texts of one kind the wrong way round.
-/

namespace Collabswarm

/-- A comparison function. -/
abbrev Comparison (α : Type*) := α → α → Option Ordering

namespace Comparison

variable {α β κ : Type*} {cmp cmp' : Comparison α} {S : α → Prop}

/-- The first value does not come after the second. -/
def Le (cmp : Comparison α) (a b : α) : Prop :=
  cmp a b = some .lt ∨ cmp a b = some .eq

instance (cmp : Comparison α) (a b : α) : Decidable (Le cmp a b) :=
  inferInstanceAs (Decidable (_ ∨ _))

/-- The comparison is a total preorder on some values. -/
structure TotalPreorderOn (cmp : Comparison α) (S : α → Prop) : Prop where
  opposite : ∀ a b, S a → S b →
    ∃ o, cmp a b = some o ∧ cmp b a = some o.swap
  trans : ∀ a b c, S a → S b → S c → Le cmp a b → Le cmp b c → Le cmp a c

namespace TotalPreorderOn

theorem refl (h : TotalPreorderOn cmp S) {a : α} (ha : S a) :
    cmp a a = some .eq := by
  obtain ⟨o, ho, hswap⟩ := h.opposite a a ha ha
  have heq : o = o.swap := Option.some.inj (ho.symm.trans hswap)
  rw [ho]
  cases o with
  | lt => cases heq
  | eq => rfl
  | gt => cases heq

theorem le_total (h : TotalPreorderOn cmp S) {a b : α} (ha : S a) (hb : S b) :
    Le cmp a b ∨ Le cmp b a := by
  obtain ⟨o, ho, hswap⟩ := h.opposite a b ha hb
  cases o with
  | lt => exact Or.inl (Or.inl ho)
  | eq => exact Or.inl (Or.inr ho)
  | gt => exact Or.inr (Or.inl hswap)

theorem lt_iff (h : TotalPreorderOn cmp S) {a b : α} (ha : S a) (hb : S b) :
    cmp a b = some .lt ↔ ¬ Le cmp b a := by
  obtain ⟨o, ho, hswap⟩ := h.opposite a b ha hb
  rw [Le, ho, hswap]
  cases o <;> simp

theorem eq_iff (h : TotalPreorderOn cmp S) {a b : α} (ha : S a) (hb : S b) :
    cmp a b = some .eq ↔ Le cmp a b ∧ Le cmp b a := by
  obtain ⟨o, ho, hswap⟩ := h.opposite a b ha hb
  rw [Le, Le, ho, hswap]
  cases o <;> simp

theorem ne_gt_iff (h : TotalPreorderOn cmp S) {a b : α} (ha : S a)
    (hb : S b) : cmp a b ≠ some .gt ↔ Le cmp a b := by
  obtain ⟨o, ho, -⟩ := h.opposite a b ha hb
  rw [Le, ho]
  cases o <;> simp

/-- What comes before something earlier comes before what is later. -/
theorem lt_of_lt_of_le (h : TotalPreorderOn cmp S) {a b c : α} (ha : S a)
    (hb : S b) (hc : S c) (hab : cmp a b = some .lt) (hbc : Le cmp b c) :
    cmp a c = some .lt := by
  rw [h.lt_iff ha hc]
  intro hca
  exact (h.lt_iff ha hb).1 hab (h.trans b c a hb hc ha hbc hca)

theorem lt_of_le_of_lt (h : TotalPreorderOn cmp S) {a b c : α} (ha : S a)
    (hb : S b) (hc : S c) (hab : Le cmp a b) (hbc : cmp b c = some .lt) :
    cmp a c = some .lt := by
  rw [h.lt_iff ha hc]
  intro hca
  exact (h.lt_iff hb hc).1 hbc (h.trans c a b hc ha hb hca hab)

theorem eq_trans (h : TotalPreorderOn cmp S) {a b c : α} (ha : S a)
    (hb : S b) (hc : S c) (hab : cmp a b = some .eq)
    (hbc : cmp b c = some .eq) : cmp a c = some .eq := by
  rw [h.eq_iff ha hb] at hab
  rw [h.eq_iff hb hc] at hbc
  rw [h.eq_iff ha hc]
  exact ⟨h.trans a b c ha hb hc hab.1 hbc.1, h.trans c b a hc hb ha hbc.2 hab.2⟩

theorem mono {T : α → Prop} (h : TotalPreorderOn cmp S)
    (hT : ∀ a, T a → S a) : TotalPreorderOn cmp T :=
  ⟨fun a b ha hb => h.opposite a b (hT a ha) (hT b hb),
    fun a b c ha hb hc => h.trans a b c (hT a ha) (hT b hb) (hT c hc)⟩

/-- Comparing through a function. -/
theorem comap {T : β → Prop} {f : β → α} (h : TotalPreorderOn cmp S)
    (hf : ∀ b, T b → S (f b)) :
    TotalPreorderOn (fun a b => cmp (f a) (f b)) T :=
  ⟨fun a b ha hb => h.opposite _ _ (hf a ha) (hf b hb),
    fun a b c ha hb hc => h.trans _ _ _ (hf a ha) (hf b hb) (hf c hc)⟩

theorem congr (h : TotalPreorderOn cmp S)
    (heq : ∀ a b, S a → S b → cmp' a b = cmp a b) :
    TotalPreorderOn cmp' S := by
  refine ⟨fun a b ha hb => ?_, fun a b c ha hb hc hab hbc => ?_⟩
  · rw [heq a b ha hb, heq b a hb ha]
    exact h.opposite a b ha hb
  · simp only [Le, heq a b ha hb, heq b c hb hc, heq a c ha hc] at *
    exact h.trans a b c ha hb hc hab hbc

/-- Everything compares equal. -/
theorem all_eq (S : α → Prop) : TotalPreorderOn (fun _ _ => some .eq) S :=
  ⟨fun _ _ _ _ => ⟨.eq, rfl, rfl⟩, fun _ _ _ _ _ _ _ _ => Or.inr rfl⟩

/-- An order by the values of a function. -/
theorem of_compare [LinearOrder β] (f : α → β) (S : α → Prop) :
    TotalPreorderOn (fun a b => some (compare (f a) (f b))) S := by
  have hle : ∀ a b, Le (fun a b => some (compare (f a) (f b))) a b ↔
      f a ≤ f b := by
    intro a b
    rw [Le, Option.some.injEq, Option.some.injEq, compare_lt_iff_lt,
      compare_eq_iff_eq, le_iff_lt_or_eq]
  refine ⟨fun a b _ _ => ⟨_, rfl, ?_⟩, fun a b c _ _ _ hab hbc => ?_⟩
  · rw [Option.some.injEq, Std.OrientedOrd.eq_swap]
  · rw [hle] at hab hbc ⊢
    exact hab.trans hbc

/-- Comparing the values of a function on some values is comparing those
values. -/
theorem image_iff {T : β → Prop} {f : β → α} :
    TotalPreorderOn cmp (fun a => ∃ b, T b ∧ a = f b) ↔
      TotalPreorderOn (fun a b => cmp (f a) (f b)) T := by
  constructor
  · intro h
    exact h.comap fun b hb => ⟨b, hb, rfl⟩
  · intro h
    refine ⟨?_, ?_⟩
    · rintro _ _ ⟨a, ha, rfl⟩ ⟨b, hb, rfl⟩
      exact h.opposite a b ha hb
    · rintro _ _ _ ⟨a, ha, rfl⟩ ⟨b, hb, rfl⟩ ⟨c, hc, rfl⟩
      exact h.trans a b c ha hb hc

/-- The other direction. -/
theorem reverse (h : TotalPreorderOn cmp S) :
    TotalPreorderOn (fun a b => (cmp a b).map Ordering.swap) S := by
  have hback : ∀ a b, S a → S b →
      (cmp a b).map Ordering.swap = cmp b a := by
    intro a b ha hb
    obtain ⟨o, ho, hswap⟩ := h.opposite a b ha hb
    rw [ho, hswap]
    rfl
  have hflip : TotalPreorderOn (fun a b => cmp b a) S :=
    ⟨fun a b ha hb => h.opposite b a hb ha,
      fun a b c ha hb hc hab hbc => h.trans c b a hc hb ha hbc hab⟩
  exact hflip.congr hback

end TotalPreorderOn

/-- Values that compare equal are told apart by a second comparison. -/
def thenBy (cmp cmp' : Comparison α) : Comparison α := fun a b =>
  if cmp a b = some .eq then cmp' a b else cmp a b

theorem TotalPreorderOn.thenBy (h : TotalPreorderOn cmp S)
    (h' : TotalPreorderOn cmp' S) : TotalPreorderOn (thenBy cmp cmp') S := by
  have hle : ∀ a b, Le (Comparison.thenBy cmp cmp') a b ↔
      cmp a b = some .lt ∨ cmp a b = some .eq ∧ Le cmp' a b := by
    intro a b
    by_cases heq : cmp a b = some .eq
    · simp [Le, Comparison.thenBy, heq]
    · simp [Le, Comparison.thenBy, heq]
  refine ⟨fun a b ha hb => ?_, fun a b c ha hb hc hab hbc => ?_⟩
  · obtain ⟨o, ho, hswap⟩ := h.opposite a b ha hb
    cases o with
    | eq =>
        obtain ⟨o', ho', hswap'⟩ := h'.opposite a b ha hb
        refine ⟨o', ?_, ?_⟩
        · rw [Comparison.thenBy, if_pos ho, ho']
        · rw [Comparison.thenBy, if_pos (by exact hswap), hswap']
    | lt => exact ⟨.lt, by simp [Comparison.thenBy, ho],
        by simp [Comparison.thenBy, hswap]⟩
    | gt => exact ⟨.gt, by simp [Comparison.thenBy, ho],
        by simp [Comparison.thenBy, hswap]⟩
  · rw [hle] at hab hbc ⊢
    rcases hab with hab | ⟨hab, hab'⟩
    · have hbc' : Le cmp b c := hbc.imp id And.left
      exact Or.inl (h.lt_of_lt_of_le ha hb hc hab hbc')
    · rcases hbc with hbc | ⟨hbc, hbc'⟩
      · exact Or.inl (h.lt_of_le_of_lt ha hb hc (Or.inr hab) hbc)
      · exact Or.inr ⟨h.eq_trans ha hb hc hab hbc,
          h'.trans a b c ha hb hc hab' hbc'⟩

/-! ## Values of several kinds -/

section Kinds

variable [DecidableEq κ] {kind : α → κ} {native text : Comparison α}

/-- Values of one kind are compared by its own order, others by their texts. -/
def mixed (kind : α → κ) (native text : Comparison α) : Comparison α :=
  fun a b => if kind a = kind b then native a b else text a b

/-- No text of another kind lies between two texts of one kind that are the
wrong way round. -/
def Aligned (kind : α → κ) (native text : Comparison α) (S : α → Prop) : Prop :=
  ∀ p q x, S p → S q → S x → kind p = kind q → kind x ≠ kind p →
    native p q = some .lt → ¬ (Le text q x ∧ Le text x p)

theorem mixed_of_eq {a b : α} (h : kind a = kind b) :
    mixed kind native text a b = native a b := if_pos h

theorem mixed_of_ne {a b : α} (h : kind a ≠ kind b) :
    mixed kind native text a b = text a b := if_neg h

/-- The orders behind a mixed comparison. -/
structure MixedOrders (kind : α → κ) (native text : Comparison α)
    (S : α → Prop) : Prop where
  within : ∀ k, TotalPreorderOn native fun a => S a ∧ kind a = k
  across : TotalPreorderOn text S
  eq_across : ∀ a b, S a → S b → kind a = kind b → native a b = some .eq →
    text a b = some .eq

theorem aligned_of_totalPreorderOn
    (h : TotalPreorderOn (mixed kind native text) S) :
    Aligned kind native text S := by
  rintro p q x hp hq hx hpq hxp hlt ⟨hqx, hxp'⟩
  have hqx' : Le (mixed kind native text) q x := by
    rw [Le, mixed_of_ne (fun heq => hxp (heq.symm.trans hpq.symm))]
    exact hqx
  have hxp'' : Le (mixed kind native text) x p := by
    rw [Le, mixed_of_ne hxp]
    exact hxp'
  have hlt' : mixed kind native text p q = some .lt := by
    rw [mixed_of_eq hpq, hlt]
  exact (h.lt_iff hp hq).1 hlt' (h.trans q x p hq hx hp hqx' hxp'')

omit [DecidableEq κ] in
/-- Within one kind, values in their own order stay in order when a value of
another kind is compared with both. -/
theorem MixedOrders.le_or (h : MixedOrders kind native text S)
    (haligned : Aligned kind native text S) {a b x : α} (ha : S a) (hb : S b)
    (hx : S x) (hab : kind a = kind b) (hxa : kind x ≠ kind a)
    (hle : Le native a b) :
    (Le text b x → Le text a x) ∧ (Le text x a → Le text x b) := by
  rcases hle with hlt | heq
  · have hnot := haligned a b x ha hb hx hab hxa hlt
    constructor
    · intro hbx
      exact (h.across.le_total ha hx).resolve_right fun hxa => hnot ⟨hbx, hxa⟩
    · intro hxa
      exact (h.across.le_total hx hb).resolve_right fun hbx => hnot ⟨hbx, hxa⟩
  · have htext := (h.across.eq_iff ha hb).1 (h.eq_across a b ha hb hab heq)
    exact ⟨fun hbx => h.across.trans a b x ha hb hx htext.1 hbx,
      fun hxa => h.across.trans x a b hx ha hb hxa htext.1⟩

theorem MixedOrders.totalPreorderOn (h : MixedOrders kind native text S)
    (haligned : Aligned kind native text S) :
    TotalPreorderOn (mixed kind native text) S := by
  refine ⟨fun a b ha hb => ?_, fun a b c ha hb hc hab hbc => ?_⟩
  · by_cases hkind : kind a = kind b
    · rw [mixed_of_eq hkind, mixed_of_eq hkind.symm]
      exact (h.within (kind b)).opposite a b ⟨ha, hkind⟩ ⟨hb, rfl⟩
    · rw [mixed_of_ne hkind, mixed_of_ne (Ne.symm hkind)]
      exact h.across.opposite a b ha hb
  -- which of the three kinds agree
  · by_cases hkab : kind a = kind b
    · rw [Le, mixed_of_eq hkab] at hab
      by_cases hkbc : kind b = kind c
      · rw [Le, mixed_of_eq hkbc] at hbc
        rw [Le, mixed_of_eq (hkab.trans hkbc)]
        exact (h.within (kind c)).trans a b c ⟨ha, hkab.trans hkbc⟩
          ⟨hb, hkbc⟩ ⟨hc, rfl⟩ hab hbc
      · rw [Le, mixed_of_ne hkbc] at hbc
        have hkca : kind c ≠ kind a := fun heq => hkbc (hkab.symm.trans heq.symm)
        rw [Le, mixed_of_ne hkca.symm]
        exact (h.le_or haligned ha hb hc hkab hkca hab).1 hbc
    · rw [Le, mixed_of_ne hkab] at hab
      by_cases hkbc : kind b = kind c
      · rw [Le, mixed_of_eq hkbc] at hbc
        have hkac : kind a ≠ kind c := fun heq => hkab (heq.trans hkbc.symm)
        rw [Le, mixed_of_ne hkac]
        exact (h.le_or haligned hb hc ha hkbc hkab hbc).2 hab
      · rw [Le, mixed_of_ne hkbc] at hbc
        by_cases hkac : kind a = kind c
        · rw [Le, mixed_of_eq hkac]
          have horders := h.within (kind c)
          -- otherwise the text of `b` lies between those of `a` and `c`
          by_contra hnot
          have hlt := (horders.lt_iff ⟨hc, rfl⟩ ⟨ha, hkac⟩).2 hnot
          exact haligned c a b hc ha hb hkac.symm hkbc hlt ⟨hab, hbc⟩
        · rw [Le, mixed_of_ne hkac]
          exact h.across.trans a b c ha hb hc hab hbc

end Kinds

/-! ## Sorting -/

/-- Stable sorting; a result that is not a number counts as zero. -/
def sort (cmp : Comparison α) (xs : List α) : List α :=
  xs.mergeSort fun a b => decide (cmp a b ≠ some .gt)

theorem sort_perm (cmp : Comparison α) (xs : List α) : (sort cmp xs).Perm xs :=
  List.mergeSort_perm _ _

/-- A sorted list is in order if the comparison is a total preorder on its
values. -/
theorem pairwise_sort {xs : List α} (h : TotalPreorderOn cmp S)
    (hxs : ∀ x ∈ xs, S x) : (sort cmp xs).Pairwise (Le cmp) := by
  let le : {x // x ∈ xs} → {x // x ∈ xs} → Bool :=
    fun a b => decide (cmp a.1 b.1 ≠ some .gt)
  have hle : ∀ a b, le a b = true ↔ Le cmp a.1 b.1 := by
    intro a b
    rw [decide_eq_true_eq]
    exact h.ne_gt_iff (hxs _ a.2) (hxs _ b.2)
  have hsorted : (xs.attach.mergeSort le).Pairwise fun a b => le a b := by
    apply List.pairwise_mergeSort
    · intro a b c hab hbc
      rw [hle] at hab hbc ⊢
      exact h.trans _ _ _ (hxs _ a.2) (hxs _ b.2) (hxs _ c.2) hab hbc
    · intro a b
      rw [Bool.or_eq_true, hle, hle]
      exact h.le_total (hxs _ a.2) (hxs _ b.2)
  have hmap : sort cmp xs = (xs.attach.mergeSort le).map Subtype.val := by
    rw [List.map_mergeSort (s := fun a b => decide (cmp a b ≠ some .gt))
      fun _ _ _ _ => rfl, List.attach_map_subtype_val]
    rfl
  rw [hmap, List.pairwise_map]
  exact hsorted.imp fun hab => (hle _ _).1 hab

/-- An element of a list in order is not after the element at its place in
another order of the list. -/
theorem le_of_perm {xs ys : List α} (h : TotalPreorderOn cmp S)
    (hxs : ∀ x ∈ xs, S x) (hperm : xs.Perm ys)
    (hsorted : xs.Pairwise (Le cmp)) (hsorted' : ys.Pairwise (Le cmp)) {i : ℕ}
    (hi : i < xs.length) (hi' : i < ys.length) : Le cmp xs[i] ys[i] := by
  have hys : ∀ y ∈ ys, S y := fun y hy => hxs y (hperm.mem_iff.2 hy)
  have hx := hxs _ (List.getElem_mem hi)
  have hy := hys _ (List.getElem_mem hi')
  by_contra hnot
  have hlt := (h.lt_iff hy hx).2 hnot
  -- count the elements that come before `xs[i]`
  let before : α → Bool := fun z => decide (cmp z xs[i] = some .lt)
  have hmany : i + 1 ≤ ys.countP before := by
    have htake : ∀ z ∈ ys.take (i + 1), before z = true := by
      intro z hz
      obtain ⟨j, hj, rfl⟩ := List.mem_iff_getElem.1 hz
      rw [List.length_take] at hj
      rw [List.getElem_take, decide_eq_true_eq]
      rcases Nat.lt_or_ge j i with hji | hji
      · have hle := List.pairwise_iff_getElem.1 hsorted' j i (by omega) hi' hji
        exact h.lt_of_le_of_lt (hys _ (List.getElem_mem _)) hy hx hle hlt
      · obtain rfl : j = i := by omega
        exact hlt
    have hcount : (ys.take (i + 1)).countP before = i + 1 := by
      rw [List.countP_eq_length.2 htake, List.length_take]
      omega
    have hsub := (List.take_sublist (i + 1) ys).countP_le (p := before)
    omega
  have hfew : xs.countP before ≤ i := by
    have hdrop : ∀ z ∈ xs.drop i, ¬ before z = true := by
      intro z hz
      obtain ⟨j, hj, rfl⟩ := List.mem_iff_getElem.1 hz
      rw [List.length_drop] at hj
      rw [List.getElem_drop, decide_eq_true_eq,
        h.lt_iff (hxs _ (List.getElem_mem _)) hx, not_not]
      rcases Nat.eq_zero_or_pos j with rfl | hpos
      · exact Or.inr (h.refl hx)
      · exact List.pairwise_iff_getElem.1 hsorted i (i + j) hi (by omega)
          (by omega)
    have hsplit : (xs.take i ++ xs.drop i).countP before =
        (xs.take i).countP before + (xs.drop i).countP before :=
      List.countP_append
    rw [List.take_append_drop, List.countP_eq_zero.2 hdrop] at hsplit
    have hle := List.countP_le_length (p := before) (l := xs.take i)
    rw [List.length_take] at hle
    omega
  have heq := hperm.countP_eq before
  omega

/-- Sorting two orders of one list gives the same, up to values that compare
equal. -/
theorem forall₂_sort {xs ys : List α} (h : TotalPreorderOn cmp S)
    (hxs : ∀ x ∈ xs, S x) (hperm : xs.Perm ys) :
    List.Forall₂ (fun a b => cmp a b = some .eq) (sort cmp xs)
      (sort cmp ys) := by
  have hys : ∀ y ∈ ys, S y := fun y hy => hxs y (hperm.mem_iff.2 hy)
  have hsorted := pairwise_sort h hxs
  have hsorted' := pairwise_sort h hys
  have hsort : (sort cmp xs).Perm (sort cmp ys) :=
    (sort_perm cmp xs).trans (hperm.trans (sort_perm cmp ys).symm)
  have hmem : ∀ x ∈ sort cmp xs, S x := fun x hx =>
    hxs x ((sort_perm cmp xs).mem_iff.1 hx)
  have hmem' : ∀ y ∈ sort cmp ys, S y := fun y hy =>
    hys y ((sort_perm cmp ys).mem_iff.1 hy)
  rw [List.forall₂_iff_get]
  refine ⟨hsort.length_eq, fun i hi hi' => ?_⟩
  rw [List.get_eq_getElem, List.get_eq_getElem,
    h.eq_iff (hmem _ (List.getElem_mem hi)) (hmem' _ (List.getElem_mem hi'))]
  exact ⟨le_of_perm h hmem hsort hsorted hsorted' hi hi',
    le_of_perm h hmem' hsort.symm hsorted' hsorted hi' hi⟩

end Comparison

end Collabswarm
