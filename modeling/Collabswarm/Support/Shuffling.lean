import Mathlib.Tactic

/-!
# Shuffling by exchanges

From the last position down every element is exchanged with one that is not
behind it.  The choices decide the arrangement, and every arrangement comes from
exactly one sequence of choices: the element that has to be last tells the first
choice, and so on.
-/

namespace Collabswarm

variable {α β : Type*}

/-- Exchange the elements at two positions. -/
def exchange (l : List α) (i j : ℕ) : List α :=
  match l[i]?, l[j]? with
  | some x, some y => (l.set i y).set j x
  | _, _ => l

/-- Exchange the elements at the positions `i`, …, `1` with the chosen ones. -/
def shuffleFrom (choice : ℕ → ℕ) : ℕ → List α → List α
  | 0, l => l
  | i + 1, l => shuffleFrom choice i (exchange l (i + 1) (choice (i + 1)))

/-- No position is exchanged with a later one. -/
def Downward (choice : ℕ → ℕ) : Prop := ∀ i, choice i ≤ i

/-! ## Exchanges -/

theorem exchange_eq {l : List α} {i j : ℕ} (hi : i < l.length)
    (hj : j < l.length) : exchange l i j = (l.set i l[j]).set j l[i] := by
  rw [exchange, List.getElem?_eq_getElem hi, List.getElem?_eq_getElem hj]

@[simp] theorem length_exchange (l : List α) (i j : ℕ) :
    (exchange l i j).length = l.length := by
  rw [exchange]
  split <;> simp

theorem exchange_perm (l : List α) (i j : ℕ) : (exchange l i j).Perm l := by
  rw [exchange]
  split
  · rename_i x y hx hy
    obtain ⟨hi, rfl⟩ := List.getElem?_eq_some_iff.1 hx
    obtain ⟨hj, rfl⟩ := List.getElem?_eq_some_iff.1 hy
    exact List.set_set_perm hi hj
  · exact List.Perm.refl l

/-- The earlier position gives its element to the later one, and what is behind
stays. -/
theorem getElem?_exchange {l : List α} {i j : ℕ} (hi : i < l.length)
    (hj : j ≤ i) {k : ℕ} (hk : i ≤ k) :
    (exchange l i j)[k]? = if k = i then l[j]? else l[k]? := by
  rw [exchange_eq hi (by omega), List.getElem?_set, List.getElem?_set]
  by_cases hki : k = i
  · subst hki
    by_cases hjk : j = k
    · subst hjk
      simp [hi]
    · simp [hjk, hi, List.getElem?_eq_getElem (show j < l.length by omega)]
  · rw [if_neg (by omega), if_neg (fun h => hki h.symm), if_neg hki]

theorem map_exchange (f : α → β) (l : List α) (i j : ℕ) :
    exchange (l.map f) i j = (exchange l i j).map f := by
  rw [exchange, exchange, List.getElem?_map, List.getElem?_map]
  cases l[i]? with
  | none => rfl
  | some x =>
      cases l[j]? with
      | none => rfl
      | some y => simp [List.map_set]

/-! ## Shuffles -/

theorem shuffleFrom_perm (choice : ℕ → ℕ) :
    ∀ (i : ℕ) (l : List α), (shuffleFrom choice i l).Perm l := by
  intro i
  induction i with
  | zero => exact fun l => List.Perm.refl l
  | succ i ih => exact fun l => (ih _).trans (exchange_perm l _ _)

theorem map_shuffleFrom (choice : ℕ → ℕ) (f : α → β) :
    ∀ (i : ℕ) (l : List α),
      shuffleFrom choice i (l.map f) = (shuffleFrom choice i l).map f := by
  intro i
  induction i with
  | zero => exact fun _ => rfl
  | succ i ih =>
      intro l
      rw [shuffleFrom, map_exchange, ih]
      rfl

/-- Only the choices for the exchanged positions count. -/
theorem shuffleFrom_congr {choice choice' : ℕ → ℕ} {i : ℕ} (l : List α)
    (h : ∀ k, 0 < k → k ≤ i → choice k = choice' k) :
    shuffleFrom choice i l = shuffleFrom choice' i l := by
  induction i generalizing l with
  | zero => rfl
  | succ i ih =>
      rw [shuffleFrom, shuffleFrom, h (i + 1) (Nat.succ_pos i) le_rfl]
      exact ih _ fun k hpos hk => h k hpos (by omega)

/-- Positions behind the first exchange keep their elements. -/
theorem getElem?_shuffleFrom {choice : ℕ → ℕ} (hchoice : Downward choice) :
    ∀ (i : ℕ) (l : List α), i < l.length → ∀ k, i < k →
      (shuffleFrom choice i l)[k]? = l[k]? := by
  intro i
  induction i with
  | zero => exact fun _ _ _ _ => rfl
  | succ i ih =>
      intro l hi k hk
      rw [shuffleFrom, ih _ (by simp; omega) k (by omega),
        getElem?_exchange hi (hchoice _) (by omega), if_neg (by omega)]

/-- The element that is last is the one that was chosen first. -/
theorem getElem?_shuffleFrom_succ {choice : ℕ → ℕ}
    (hchoice : Downward choice) {i : ℕ} {l : List α}
    (hi : i + 1 < l.length) :
    (shuffleFrom choice (i + 1) l)[i + 1]? = l[choice (i + 1)]? := by
  rw [shuffleFrom, getElem?_shuffleFrom hchoice i _ (by simp; omega) _
    (Nat.lt_succ_self i), getElem?_exchange hi (hchoice _) le_rfl, if_pos rfl]

/-- Arrangements that agree from position `1` on are equal. -/
theorem eq_of_perm_of_getElem? {l l' : List α} (hperm : l'.Perm l)
    (hsame : ∀ k, 0 < k → l'[k]? = l[k]?) : l' = l := by
  cases l with
  | nil => exact hperm.eq_nil
  | cons x l =>
      cases l' with
      | nil => exact absurd hperm.symm.eq_nil (by simp)
      | cons y l' =>
          have htail : l' = l := by
            refine List.ext_getElem? ?_
            intro k
            exact hsame (k + 1) (Nat.succ_pos k)
          subst htail
          have hhead : [y].Perm [x] := (List.perm_append_right_iff l').1 hperm
          rw [List.singleton_perm_singleton.1 hhead]

/-- With distinct elements every arrangement that keeps the elements behind
position `i` comes from a sequence of choices, which is unique. -/
theorem exists_choice :
    ∀ (i : ℕ) (l l' : List α), l.Nodup → l'.Perm l → i < l.length →
      (∀ k, i < k → l'[k]? = l[k]?) →
      ∃ choice, Downward choice ∧ shuffleFrom choice i l = l' ∧
        ∀ choice', Downward choice' → shuffleFrom choice' i l = l' →
          ∀ k, 0 < k → k ≤ i → choice' k = choice k := by
  intro i
  induction i with
  | zero =>
      intro l l' _ hperm _ hsame
      refine ⟨fun _ => 0, fun _ => Nat.zero_le _,
        (eq_of_perm_of_getElem? hperm hsame).symm, ?_⟩
      intro choice' _ _ k hpos hle
      omega
  | succ i ih =>
      intro l l' hnodup hperm hi hsame
      have hi' : i + 1 < l'.length := by rw [hperm.length_eq]; exact hi
      -- the position of the element that has to be last
      obtain ⟨j, hj, hlast⟩ :=
        List.mem_iff_getElem.1 (hperm.mem_iff.1 (List.getElem_mem hi'))
      have hlast? : l[j]? = l'[i + 1]? := by
        rw [List.getElem?_eq_getElem hj, List.getElem?_eq_getElem hi', hlast]
      have hdown : j ≤ i + 1 := by
        by_contra hlate
        have heq := (hlast?.symm.trans
          (hsame j (by omega)).symm)
        have hnodup' : l'.Nodup := hperm.nodup_iff.2 hnodup
        have hindex := (List.getElem?_inj hi' hnodup').1 heq
        omega
      have hchosen : ∀ choice : ℕ → ℕ, Downward choice →
          shuffleFrom choice (i + 1) l = l' → choice (i + 1) = j := by
        intro choice hchoice hshuffle
        have hget := getElem?_shuffleFrom_succ hchoice hi
        rw [hshuffle, ← hlast?] at hget
        exact ((List.getElem?_inj hj hnodup).1 hget).symm
      have hsame' : ∀ k, i < k → l'[k]? = (exchange l (i + 1) j)[k]? := by
        intro k hk
        rw [getElem?_exchange hi hdown hk]
        by_cases hki : k = i + 1
        · rw [if_pos hki, hki, hlast?]
        · rw [if_neg hki]
          exact hsame k (by omega)
      obtain ⟨choice, hchoice, hshuffle, hunique⟩ :=
        ih (exchange l (i + 1) j) l'
          ((exchange_perm l _ _).nodup_iff.2 hnodup)
          (hperm.trans (exchange_perm l _ _).symm) (by simp; omega) hsame'
      refine ⟨Function.update choice (i + 1) j, ?_, ?_, ?_⟩
      · intro k
        by_cases hk : k = i + 1
        · rw [hk, Function.update_self]
          exact hdown
        · rw [Function.update_of_ne hk]
          exact hchoice k
      · rw [shuffleFrom, Function.update_self, ← hshuffle]
        refine shuffleFrom_congr _ ?_
        intro k _ hk
        exact Function.update_of_ne (by omega) _ _
      · intro choice' hchoice' hshuffle' k hpos hk
        have hfirst := hchosen choice' hchoice' hshuffle'
        by_cases hki : k = i + 1
        · rw [hki, Function.update_self, hfirst]
        · rw [Function.update_of_ne hki]
          rw [shuffleFrom, hfirst] at hshuffle'
          exact hunique choice' hchoice' hshuffle' k hpos (by omega)

end Collabswarm
