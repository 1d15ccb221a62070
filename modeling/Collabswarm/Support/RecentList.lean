import Mathlib.Data.List.Dedup
import Mathlib.Data.List.DropRight

/-!
# Lists of recent elements

A list that moves an element to its back when its key is touched, and drops
elements from its front when it exceeds its capacity, holds the elements whose
keys were touched last.
-/

namespace Collabswarm.RecentList

variable {α κ : Type*} [DecidableEq κ] (key : α → κ)

/-- Move an element to the back, in place of the one with its key. -/
def touch (l : List α) (a : α) : List α :=
  l.eraseP (fun b => key b = key a) ++ [a]

/-- The elements whose key does not come again. -/
def lastOccurrences : List α → List α
  | [] => []
  | a :: l =>
      if key a ∈ l.map key then lastOccurrences l else a :: lastOccurrences l

theorem map_lastOccurrences (l : List α) :
    (lastOccurrences key l).map key = (l.map key).dedup := by
  induction l with
  | nil => rfl
  | cons a l ih =>
      rw [lastOccurrences, List.map_cons, List.dedup_cons]
      split
      · exact ih
      · rw [List.map_cons, ih]

theorem mem_map_lastOccurrences {l : List α} {k : κ} :
    k ∈ (lastOccurrences key l).map key ↔ k ∈ l.map key := by
  rw [map_lastOccurrences, List.mem_dedup]

theorem touch_of_notMem {l : List α} {a : α} (h : key a ∉ l.map key) :
    touch key l a = l ++ [a] := by
  rw [touch, List.eraseP_of_forall_not]
  intro b hb hkey
  exact h (of_decide_eq_true hkey ▸ List.mem_map_of_mem hb)

theorem length_touch_of_mem {l : List α} {a : α} (h : key a ∈ l.map key) :
    (touch key l a).length = l.length := by
  obtain ⟨b, hb, hkey⟩ := List.mem_map.1 h
  have hpos := List.length_pos_of_mem hb
  rw [touch, List.length_append, List.length_singleton,
    List.length_eraseP_of_mem hb (by simpa using hkey)]
  omega

theorem length_le_touch (l : List α) (a : α) :
    l.length ≤ (touch key l a).length := by
  by_cases h : key a ∈ l.map key
  · rw [length_touch_of_mem key h]
  · rw [touch_of_notMem key h, List.length_append]
    exact Nat.le_add_right _ _

theorem touch_sublist_touch {l l' : List α} (h : l.Sublist l') (a : α) :
    (touch key l a).Sublist (touch key l' a) :=
  h.eraseP.append (List.Sublist.refl _)

/-- An occurrence moves its key to the back. -/
theorem lastOccurrences_append_singleton (l : List α) (a : α) :
    lastOccurrences key (l ++ [a]) = touch key (lastOccurrences key l) a := by
  induction l with
  | nil => rfl
  | cons b l ih =>
      rw [List.cons_append, lastOccurrences, lastOccurrences, ih]
      by_cases hmem : key b ∈ l.map key
      · have hmem' : key b ∈ (l ++ [a]).map key := by
          rw [List.map_append]
          exact List.mem_append_left _ hmem
        rw [if_pos hmem', if_pos hmem]
      rw [if_neg hmem]
      by_cases hkey : key b = key a
      · have hlast : key a ∉ (lastOccurrences key l).map key := by
          rw [mem_map_lastOccurrences, ← hkey]
          exact hmem
        have hmem' : key b ∈ (l ++ [a]).map key := by simp [hkey]
        rw [if_pos hmem', touch_of_notMem key hlast, touch,
          List.eraseP_cons_of_pos (by simpa using hkey)]
      · have hnew : key b ∉ (l ++ [a]).map key := by
          rw [List.map_append, List.mem_append, not_or]
          exact ⟨hmem, by simpa using hkey⟩
        rw [if_neg hnew, touch, touch,
          List.eraseP_cons_of_neg (by simpa using hkey), List.cons_append]

theorem lastOccurrences_nodup (l : List α) :
    ((lastOccurrences key l).map key).Nodup := by
  rw [map_lastOccurrences]
  exact List.nodup_dedup _

omit [DecidableEq κ] in
theorem rtake_append_of_le {l l' : List α} {n : ℕ} (h : n ≤ l'.length) :
    (l ++ l').rtake n = l'.rtake n := by
  have hlength : (l ++ l').length - n = l.length + (l'.length - n) := by
    rw [List.length_append]
    omega
  rw [List.rtake, hlength, List.drop_length_add_append, List.rtake]

omit [DecidableEq κ] in
theorem rtake_append_of_ge {l l' : List α} {n : ℕ} (h : l'.length ≤ n) :
    (l ++ l').rtake n = l.rtake (n - l'.length) ++ l' := by
  have hlength : (l ++ l').length - n = l.length - (n - l'.length) := by
    rw [List.length_append]
    omega
  rw [List.rtake, hlength, List.drop_append_of_le_length (by omega),
    List.rtake]

omit [DecidableEq κ] in
theorem rtake_of_length_le {l : List α} {n : ℕ} (h : l.length ≤ n) :
    l.rtake n = l := by
  rw [List.rtake, Nat.sub_eq_zero_of_le h, List.drop_zero]

omit [DecidableEq κ] in
theorem length_rtake_le (l : List α) (n : ℕ) : (l.rtake n).length ≤ n := by
  rw [List.rtake, List.length_drop]
  omega

omit [DecidableEq κ] in
/-- Where at most one element can be erased, only the last `n + 1` elements
matter for the last `n`. -/
theorem rtake_eraseP_rtake {p : α → Bool} {l : List α} (h : l.countP p ≤ 1)
    (n : ℕ) : ((l.rtake (n + 1)).eraseP p).rtake n = (l.eraseP p).rtake n := by
  obtain ⟨front, hfront⟩ : ∃ front, front ++ l.rtake (n + 1) = l :=
    ⟨_, List.take_append_drop (l.length - (n + 1)) l⟩
  by_cases hnil : front = []
  · rw [hnil, List.nil_append] at hfront
    rw [hfront]
  set back := l.rtake (n + 1) with hback
  have hlength : back.length = n + 1 := by
    have htotal := congrArg List.length hfront
    have hpos := List.length_pos_iff.2 hnil
    rw [List.length_append] at htotal
    rw [hback, List.rtake, List.length_drop] at htotal ⊢
    omega
  rw [← hfront, List.countP_append] at h
  rw [← hfront]
  by_cases hmem : ∃ a ∈ front, p a = true
  · -- the element is in front, so nothing is erased behind it
    obtain ⟨a, ha, hp⟩ := hmem
    have hone : 0 < front.countP p := List.countP_pos_iff.2 ⟨a, ha, hp⟩
    have hzero : back.countP p = 0 := by omega
    rw [List.eraseP_append_left hp _ ha, rtake_append_of_le (by omega),
      List.eraseP_of_forall_not (List.countP_eq_zero.1 hzero)]
  · have hle : back.length - 1 ≤ (back.eraseP p).length :=
      List.le_length_eraseP
    rw [List.eraseP_append_right, rtake_append_of_le (by omega)]
    intro a ha hp
    exact hmem ⟨a, ha, hp⟩

/-- Dropping the front commutes with moving to the back. -/
theorem rtake_touch_rtake {l : List α} (hnodup : (l.map key).Nodup) (a : α)
    (cap : ℕ) : (touch key (l.rtake cap) a).rtake cap =
      (touch key l a).rtake cap := by
  cases cap with
  | zero => rw [List.rtake_zero, List.rtake_zero]
  | succ n =>
      have hone : l.countP (fun b => key b = key a) ≤ 1 := by
        have hcount := List.nodup_iff_count_le_one.1 hnodup (key a)
        rw [List.count, List.countP_map] at hcount
        exact hcount
      rw [touch, touch, List.rtake_concat_succ, List.rtake_concat_succ,
        rtake_eraseP_rtake hone]

/-- The recent elements are the last of those whose key does not come again. -/
theorem foldl_touch (cap : ℕ) (l : List α) :
    l.foldl (fun recent a => (touch key recent a).rtake cap) [] =
      (lastOccurrences key l).rtake cap := by
  induction l using List.reverseRecOn with
  | nil => rw [lastOccurrences, List.rtake_nil]; rfl
  | append_singleton l a ih =>
      rw [List.foldl_append, ih, lastOccurrences_append_singleton]
      exact rtake_touch_rtake key (lastOccurrences_nodup key l) a cap

/-- The elements whose key comes again later are not among the last
occurrences. -/
theorem lastOccurrences_append (l l' : List α) :
    lastOccurrences key (l ++ l') =
      (lastOccurrences key l).filter (fun a => key a ∉ l'.map key) ++
        lastOccurrences key l' := by
  induction l with
  | nil => rfl
  | cons a l ih =>
      have hiff : key a ∈ (l ++ l').map key ↔
          key a ∈ l.map key ∨ key a ∈ l'.map key := by
        rw [List.map_append, List.mem_append]
      rw [List.cons_append, lastOccurrences, lastOccurrences, ih]
      by_cases hmem : key a ∈ l.map key
      · rw [if_pos (hiff.2 (Or.inl hmem)), if_pos hmem]
      rw [if_neg hmem]
      by_cases hmem' : key a ∈ l'.map key
      · rw [if_pos (hiff.2 (Or.inr hmem')),
          List.filter_cons_of_neg (by simpa using hmem')]
      · rw [if_neg fun h => (hiff.1 h).elim hmem hmem',
          List.filter_cons_of_pos (by simpa using hmem'), List.cons_append]

omit [DecidableEq κ] in
/-- The last elements of a sublist, where the longer list drops its first
element only if the shorter one does. -/
theorem rtake_sublist_rtake {l l' : List α} (hsub : l.Sublist l') {n n' : ℕ}
    (hlength : l'.length ≤ n' + 1)
    (hfull : n' < l'.length → n < l.length) :
    (l.rtake n).Sublist (l'.rtake n') := by
  rw [List.rtake, List.rtake]
  by_cases h : l'.length ≤ n'
  · rw [Nat.sub_eq_zero_of_le h, List.drop_zero]
    exact (List.drop_sublist _ _).trans hsub
  · have hone : l'.length - n' = 1 := by omega
    have hpos : l.length - n = 1 + (l.length - n - 1) := by
      have := hfull (by omega)
      omega
    rw [hone, hpos, ← List.drop_drop]
    exact (List.drop_sublist _ _).trans (hsub.drop 1)

/-- Moving an element to the back of two lists keeps the one a sublist of the
other, if the shorter capacity is used up where the lists differ. -/
theorem touch_rtake_sublist {l l' : List α} (hsub : l.Sublist l') {n n' : ℕ}
    (hle : n ≤ n') (hlength : l'.length ≤ n')
    (hfull : l.length < n → l = l') (a : α) :
    ((touch key l a).rtake n).Sublist ((touch key l' a).rtake n') := by
  apply rtake_sublist_rtake (touch_sublist_touch key hsub a)
  · by_cases h : key a ∈ l'.map key
    · rw [length_touch_of_mem key h]
      omega
    · rw [touch_of_notMem key h, List.length_append, List.length_singleton]
      omega
  · intro hlong
    have hnew' : key a ∉ l'.map key := by
      intro h
      rw [length_touch_of_mem key h] at hlong
      omega
    have hnew : key a ∉ l.map key := fun h => hnew' ((hsub.map key).subset h)
    rw [touch_of_notMem key hnew', List.length_append] at hlong
    rw [touch_of_notMem key hnew, List.length_append, List.length_singleton]
    by_contra hlt
    have heq := hfull (by omega)
    rw [List.length_singleton, ← heq] at hlong
    omega

/-- While the shorter capacity is not used up, the lists stay the same. -/
theorem touch_rtake_eq {l l' : List α} {n n' : ℕ} (hle : n ≤ n')
    (hfull : l.length < n → l = l') (a : α)
    (hroom : ((touch key l a).rtake n).length < n) :
    (touch key l a).rtake n = (touch key l' a).rtake n' := by
  have htouch : (touch key l a).length < n := by
    rw [List.rtake, List.length_drop] at hroom
    omega
  have hlt := (length_le_touch key l a).trans_lt htouch
  rw [← hfull hlt, rtake_of_length_le htouch.le,
    rtake_of_length_le (htouch.le.trans hle)]

end Collabswarm.RecentList
