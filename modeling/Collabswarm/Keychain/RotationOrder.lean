import Collabswarm.Keychain.Keychain

/-!
# The order of keys and the order of rotations

Any number of replicas of one keychain add keys and merge changes that any of
them returned at any time.  A key that is added while another one is in the list
is inserted behind it, so the list keeps the order of rotations as long as every
key has one operation only.  A rebuilt slice, or a second insertion of the same
key, gives it another place.
-/

namespace Collabswarm.Keychain

variable {I K : Type} [DecidableEq I] [DecidableEq K]

/-- The replicas, the changes that their methods returned, and the pairs of key
ids of which the second was added while the first was in the list. -/
structure Network (I K : Type) where
  replicas : List (Keychain I K)
  changes : List (List (PushOp (I × K)))
  superseded : List (I × I)

namespace Network

/-- A number of new keychains. -/
def initial (count : ℕ) : Network I K := ⟨List.replicate count new, [], []⟩

/-- What can happen at a replica. -/
inductive Event (I K : Type) where
  | addition (r : ℕ) (a : Addition I K)
  | history (r : ℕ)
  | historySince (r : ℕ) (keyId : I) (opIds : ℕ → ℕ)
  | currentKeyChange (r : ℕ) (opIds : ℕ → ℕ)
  | merge (r n : ℕ)

/-- A change is returned, or the call throws. -/
def returned (s : Network I K) :
    Except KeychainError (List (PushOp (I × K))) → Network I K
  | .ok change => { s with changes := s.changes ++ [change] }
  | .error _ => s

/-- Replica `r` adds a key. -/
def addAt (flavour : Flavour) (s : Network I K) (r : ℕ) (kc : Keychain I K)
    (a : Addition I K) : Network I K where
  replicas := s.replicas.set r (a.run flavour kc).1
  changes := s.changes ++ [(a.run flavour kc).2]
  superseded := s.superseded ++
    kc.doc.contents.map fun entry => (entry.1, a.entry.1)

/-- The network after an event; events of missing replicas and changes do
nothing. -/
def step (flavour : Flavour) (s : Network I K) :
    Event I K → Network I K
  | .addition r a =>
      match s.replicas[r]? with
      | some kc => s.addAt flavour r kc a
      | none => s
  | .history r =>
      match s.replicas[r]? with
      | some kc => s.returned (.ok (kc.history flavour))
      | none => s
  | .historySince r keyId opIds =>
      match s.replicas[r]? with
      | some kc => s.returned (kc.historySince flavour keyId opIds)
      | none => s
  | .currentKeyChange r opIds =>
      match s.replicas[r]? with
      | some kc => s.returned (kc.currentKeyChange flavour opIds)
      | none => s
  | .merge r n =>
      match s.replicas[r]?, s.changes[n]? with
      | some kc, some change =>
          { s with replicas := s.replicas.set r (kc.merge change) }
      | _, _ => s

/-- In every list all occurrences of a key stand before all occurrences of a
key that was added in its presence, and `current` returns no key that a key of
the list was added in the presence of. -/
def RotationOrdered (s : Network I K) : Prop :=
  ∀ kc ∈ s.replicas, ∀ p ∈ s.superseded,
    (∀ i j : ℕ, (kc.doc.contents.map Prod.fst)[i]? = some p.1 →
      (kc.doc.contents.map Prod.fst)[j]? = some p.2 → i < j) ∧
    ∀ entry, kc.current.1 = .ok entry → entry.1 = p.1 →
      p.2 ∉ kc.doc.contents.map Prod.fst

/-- An operation that some replica has received or made. -/
def Held (s : Network I K) (op : PushOp (I × K)) : Prop :=
  ∃ kc ∈ s.replicas, op ∈ kc.doc.all

/-- The event brings no second operation for a key id that a replica has an
operation for. -/
def SingleOperation (s : Network I K) : Event I K → Prop
  | .addition _ a =>
      ∀ kc ∈ s.replicas, ∀ op ∈ kc.doc.all, op.content.1 ≠ a.entry.1
  | .merge _ n =>
      ∀ change ∈ s.changes[n]?, ∀ op ∈ change,
        (∀ kc ∈ s.replicas, ∀ op' ∈ kc.doc.all,
          op'.content.1 = op.content.1 → op' = op) ∧
        ∀ op' ∈ change, op'.content.1 = op.content.1 → op' = op
  | .history _ => True
  | .historySince _ _ _ => True
  | .currentKeyChange _ _ => True

instance (s : Network I K) (e : Event I K) : Decidable (s.SingleOperation e) :=
  match e with
  | .addition _ _ => inferInstanceAs (Decidable (∀ _ ∈ _, _))
  | .merge _ _ => inferInstanceAs (Decidable (∀ _ ∈ _, _))
  | .history _ => isTrue trivial
  | .historySince _ _ _ => isTrue trivial
  | .currentKeyChange _ _ => isTrue trivial

/-! ## Replacing a replica -/

section Replace

omit [DecidableEq I] [DecidableEq K]

theorem held_of_set {s : Network I K} {r : ℕ} {kc : Keychain I K}
    {op : PushOp (I × K)}
    (h : ∃ kc' ∈ s.replicas.set r kc, op ∈ kc'.doc.all) :
    s.Held op ∨ op ∈ kc.doc.all := by
  obtain ⟨kc', hkc', hop⟩ := h
  rcases List.mem_or_eq_of_mem_set hkc' with hold | rfl
  · exact Or.inl ⟨kc', hold, hop⟩
  · exact Or.inr hop

theorem held_set {s : Network I K} {r : ℕ} {kc kc' : Keychain I K}
    (hr : s.replicas[r]? = some kc) (hsub : kc.doc.all ⊆ kc'.doc.all)
    {op : PushOp (I × K)} (hop : s.Held op) :
    ∃ kc'' ∈ s.replicas.set r kc', op ∈ kc''.doc.all := by
  obtain ⟨old, hold, hop⟩ := hop
  obtain ⟨i, hi⟩ := List.mem_iff_getElem?.1 hold
  have hlen : r < s.replicas.length := (List.getElem?_eq_some_iff.1 hr).1
  by_cases hri : r = i
  · subst hri
    rw [hr] at hi
    cases hi
    exact ⟨kc', List.mem_of_getElem? (List.getElem?_set_self hlen),
      hsub hop⟩
  · refine ⟨old, List.mem_of_getElem? (i := i) ?_, hop⟩
    rw [List.getElem?_set_ne hri, hi]

theorem mem_set_self {s : Network I K} {r : ℕ} {kc kc' : Keychain I K}
    (hr : s.replicas[r]? = some kc) : kc' ∈ s.replicas.set r kc' :=
  List.mem_of_getElem?
    (List.getElem?_set_self (List.getElem?_eq_some_iff.1 hr).1)

end Replace

/-! ## One operation for each key -/

/-- Every key id has one operation, and a key that was added in the presence of
another stands behind it. -/
structure Single (s : Network I K) : Prop where
  single : ∀ op op', s.Held op → s.Held op' →
    op.content.1 = op'.content.1 → op = op'
  behind : ∀ p ∈ s.superseded, ∃ op op', s.Held op ∧ s.Held op' ∧
    op.content.1 = p.1 ∧ op'.content.1 = p.2 ∧ op.position < op'.position

omit [DecidableEq I] [DecidableEq K] in
theorem initial_single (count : ℕ) :
    (initial count : Network I K).Single := by
  refine ⟨?_, by simp [initial]⟩
  rintro op op' ⟨kc, hkc, hop⟩
  rw [List.eq_of_mem_replicate hkc] at hop
  cases hop

omit [DecidableEq K] in
theorem Single.addAt {s : Network I K} (h : s.Single) (flavour : Flavour)
    {r : ℕ} {kc : Keychain I K} (hr : s.replicas[r]? = some kc)
    {a : Addition I K}
    (hnew : ∀ kc ∈ s.replicas, ∀ op ∈ kc.doc.all, op.content.1 ≠ a.entry.1) :
    (s.addAt flavour r kc a).Single := by
  obtain ⟨⟨cache, hrun⟩, -⟩ := a.run_spec flavour kc
  set newOp := kc.entryOp flavour a.opId a.entry with hnewOp
  have hlog : (a.run flavour kc).1.doc.log = kc.doc.log ++ [newOp] := by
    rw [hrun]
    rfl
  have hall : (a.run flavour kc).1.doc.all.Perm (newOp :: kc.doc.all) := by
    rw [CausalLog.all, hlog, hrun, CausalLog.all, List.append_assoc]
    exact List.perm_middle
  have hkc : kc ∈ s.replicas := List.mem_of_getElem? hr
  have hmono : ∀ {op}, s.Held op → (s.addAt flavour r kc a).Held op := by
    intro op hop
    exact held_set hr
      (fun x hx => hall.mem_iff.2 (List.mem_cons_of_mem _ hx)) hop
  have hheld : (s.addAt flavour r kc a).Held newOp :=
    ⟨_, mem_set_self hr, hall.mem_iff.2 (by simp)⟩
  have hcases : ∀ {op}, (s.addAt flavour r kc a).Held op →
      s.Held op ∨ op = newOp := by
    intro op hop
    rcases held_of_set hop with hold | hmem
    · exact Or.inl hold
    · rcases List.mem_cons.1 (hall.mem_iff.1 hmem) with rfl | hmem
      · exact Or.inr rfl
      · exact Or.inl ⟨kc, hkc, hmem⟩
  have hfresh : ∀ {op}, s.Held op → op.content.1 ≠ newOp.content.1 := by
    rintro op ⟨kc', hkc', hop⟩
    exact hnew kc' hkc' op hop
  refine ⟨?_, ?_⟩
  · intro op op' hop hop' heq
    rcases hcases hop with hold | rfl
    · rcases hcases hop' with hold' | rfl
      · exact h.single op op' hold hold' heq
      · exact absurd heq (hfresh hold)
    · rcases hcases hop' with hold' | rfl
      · exact absurd heq.symm (hfresh hold')
      · rfl
  · intro p hp
    rcases List.mem_append.1 hp with hold | hadded
    · obtain ⟨op, op', hop, hop', hrest⟩ := h.behind p hold
      exact ⟨op, op', hmono hop, hmono hop', hrest⟩
    · obtain ⟨entry, hentry, rfl⟩ := List.mem_map.1 hadded
      obtain ⟨op, hop, rfl⟩ := CausalLog.mem_contents.1 hentry
      refine ⟨op, newOp, hmono ⟨kc, hkc, List.mem_append_left _ hop⟩, hheld,
        rfl, rfl, ?_⟩
      exact CausalLog.lt_position_pushOp hop _ _ _

theorem Single.merge {s : Network I K} (h : s.Single) {r : ℕ}
    {kc : Keychain I K} (hr : s.replicas[r]? = some kc)
    {change : List (PushOp (I × K))}
    (hone : ∀ op ∈ change,
      (∀ kc ∈ s.replicas, ∀ op' ∈ kc.doc.all,
        op'.content.1 = op.content.1 → op' = op) ∧
      ∀ op' ∈ change, op'.content.1 = op.content.1 → op' = op) :
    ({ s with replicas := s.replicas.set r (kc.merge change) } :
      Network I K).Single := by
  obtain ⟨-, hall, hkept, -, -⟩ := kc.doc.receive_spec change
  have hkc : kc ∈ s.replicas := List.mem_of_getElem? hr
  have hcases : ∀ {op}, (∃ kc' ∈ s.replicas.set r (kc.merge change),
      op ∈ kc'.doc.all) → s.Held op ∨ op ∈ change := by
    intro op hop
    rcases held_of_set hop with hold | hmem
    · exact Or.inl hold
    · rcases hall op hmem with hmem | hmem
      · exact Or.inl ⟨kc, hkc, hmem⟩
      · exact Or.inr hmem
  have hsame : ∀ {op op'}, op ∈ change → (s.Held op' ∨ op' ∈ change) →
      op'.content.1 = op.content.1 → op' = op := by
    intro op op' hop hop' heq
    rcases hop' with ⟨kc', hkc', hmem⟩ | hmem
    · exact (hone op hop).1 kc' hkc' op' hmem heq
    · exact (hone op hop).2 op' hmem heq
  refine ⟨?_, ?_⟩
  · intro op op' hop hop' heq
    rcases hcases hop with hold | hmessage
    · rcases hcases hop' with hold' | hmessage'
      · exact h.single op op' hold hold' heq
      · exact hsame hmessage' (Or.inl hold) heq
    · exact (hsame hmessage (hcases hop') heq.symm).symm
  · intro p hp
    obtain ⟨op, op', hop, hop', hrest⟩ := h.behind p hp
    exact ⟨op, op', held_set hr hkept hop, held_set hr hkept hop', hrest⟩

omit [DecidableEq I] [DecidableEq K] in
theorem Single.returned {s : Network I K} (h : s.Single)
    (result : Except KeychainError (List (PushOp (I × K)))) :
    (s.returned result).Single := by
  cases result with
  | ok change => exact ⟨h.single, h.behind⟩
  | error e => exact h

/-- An event that brings no second operation for a key keeps every key
single. -/
theorem Single.step {s : Network I K} (h : s.Single) (flavour : Flavour)
    {e : Event I K} (hsingle : s.SingleOperation e) :
    (s.step flavour e).Single := by
  cases e with
  | addition r a =>
      rw [Network.step]
      split
      · rename_i kc hr
        exact h.addAt flavour hr hsingle
      · exact h
  | history r =>
      rw [Network.step]
      split
      · exact h.returned _
      · exact h
  | historySince r keyId opIds =>
      rw [Network.step]
      split
      · exact h.returned _
      · exact h
  | currentKeyChange r opIds =>
      rw [Network.step]
      split
      · exact h.returned _
      · exact h
  | merge r n =>
      rw [Network.step]
      split
      · rename_i kc change hr hn
        exact h.merge hr (hsingle change hn)
      · exact h

/-! ## The order of the lists -/

omit [DecidableEq K] in
theorem current_entry {kc : Keychain I K} {entry : I × K}
    (h : kc.current.1 = .ok entry) :
    (kc.doc.contents.map Prod.fst).getLast? = some entry.1 := by
  rw [current] at h
  split at h
  · cases h
  · rename_i last hlast
    split at h
    · cases h
      simp [hlast]
    · cases h
      simp [hlast]

omit [DecidableEq K] in
theorem Single.rotationOrdered {s : Network I K} (h : s.Single) :
    s.RotationOrdered := by
  intro kc hkc p hp
  obtain ⟨op, op', hop, hop', hkey, hkey', hlt⟩ := h.behind p hp
  have hheld : ∀ {x}, x ∈ kc.doc.visible → s.Held x := fun hx =>
    ⟨kc, hkc, List.mem_append_left _ (CausalLog.mem_visible.1 hx)⟩
  have hfind : ∀ {x : PushOp (I × K)} {i : ℕ}, s.Held x →
      (kc.doc.contents.map Prod.fst)[i]? = some x.content.1 →
      kc.doc.visible[i]? = some x := by
    intro x i hx hi
    simp only [CausalLog.contents, List.map_map, List.getElem?_map,
      Option.map_eq_some_iff, Function.comp_apply] at hi
    obtain ⟨y, hy, heq⟩ := hi
    have hxy : y = x :=
      h.single y x (hheld (List.mem_of_getElem? hy)) hx heq
    rw [hy, hxy]
  have horder : ∀ i j : ℕ,
      (kc.doc.contents.map Prod.fst)[i]? = some p.1 →
      (kc.doc.contents.map Prod.fst)[j]? = some p.2 → i < j := by
    intro i j hi hj
    rw [← hkey] at hi
    rw [← hkey'] at hj
    exact CausalLog.index_lt_of_position_lt (hfind hop hi) (hfind hop' hj) hlt
  refine ⟨horder, ?_⟩
  intro entry hcurrent heq hmem
  have hlast := current_entry hcurrent
  rw [heq, List.getLast?_eq_getElem?] at hlast
  obtain ⟨j, hj⟩ := List.mem_iff_getElem?.1 hmem
  have hjlen := (List.getElem?_eq_some_iff.1 hj).1
  have hlt := horder _ j hlast hj
  omega

/-- In every run in which no event brings a second operation for a key, the
lists of all replicas keep the order of rotations. -/
theorem rotationOrdered_of_singleOperation (flavour : Flavour) (count : ℕ)
    (events : List (Event I K))
    (hsingle : Guarded (step flavour) SingleOperation (initial count)
      events) :
    (exec (step flavour) (initial count) events).RotationOrdered := by
  refine Single.rotationOrdered ?_
  refine exec_invariant ?_ events _ (initial_single count) hsingle
  exact fun s e h hguard => h.step flavour hguard

/-- Two replicas that rotate in turn and exchange what their calls return. -/
def turns : List (Event ℕ ℕ) :=
  [.addition 0 (.add 1 10 100), .merge 1 0,
    .addition 1 (.addEpochKey 2 11 101), .merge 0 1, .history 0,
    .addition 0 (.add 3 12 102), .merge 1 2, .merge 1 3]

theorem turns_rotationOrdered :
    Guarded (step .yjs) SingleOperation (initial 2) turns ∧
      (exec (step .yjs) (initial 2) turns).RotationOrdered := by
  have hsingle : Guarded (step .yjs) SingleOperation (initial 2) turns := by
    decide +kernel
  exact ⟨hsingle, rotationOrdered_of_singleOperation .yjs 2 turns hsingle⟩

/-- A replica that merged the current key of another and later its history has
the first key behind the second one as well. -/
def sliceThenHistory : List (Event ℕ ℕ) :=
  [.addition 0 (.add 1 10 100), .currentKeyChange 0 (100 + ·), .merge 1 1,
    .addition 0 (.add 2 11 101), .history 0, .merge 1 3]

theorem sliceThenHistory_not_rotationOrdered :
    ¬ (exec (step .yjs) (initial 2) sliceThenHistory).RotationOrdered := by
  intro h
  have hkeys : ∃ kc ∈ (exec (step .yjs) (initial 2)
        sliceThenHistory).replicas,
      (kc.doc.contents.map Prod.fst)[1]? = some 11 ∧
        (kc.doc.contents.map Prod.fst)[2]? = some 10 := by
    decide +kernel
  obtain ⟨kc, hkc, hsecond, hfirst⟩ := hkeys
  have hadded : (10, 11) ∈
      (exec (step .yjs) (initial 2) sliceThenHistory).superseded := by
    decide +kernel
  exact absurd ((h kc hkc _ hadded).1 2 1 hfirst hsecond) (by decide)

end Network

end Collabswarm.Keychain
