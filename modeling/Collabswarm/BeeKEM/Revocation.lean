import Collabswarm.BeeKEM.Provenance
import Collabswarm.Support.Knowledge

/-!
# What a removed member can still derive

A path update does not say which leaf was blanked, so survivors keep the key of
the removed leaf in their own trees and may seal later keys to it.  A removed
member then derives the new root.  It derives none as long as it is not added
again and nobody seals to a key that it could derive when it was removed.
-/

namespace Collabswarm.BeeKEM.Group

open TreeMath Collabswarm.BeeKEM.Tree

/-! ## Derivable keys -/

/-- The emitted boxes, by the private key that opens them. -/
def boxes (g : Group) : Set (PrivateKey × PrivateKey) :=
  {p | Sealed.box p.1.publicKey p.2 ∈ g.emitted}

/-- The private keys a member can derive from what it ever held and from all
that was emitted. -/
def derivable (g : Group) (member : ℕ) : Set PrivateKey :=
  {sk | Derivable {key | (member, key) ∈ g.held} g.boxes sk}

/-- The public keys an operation seals to, read off the sender's tree. -/
def recipients (g : Group) : Operation → List PublicKey
  | .generate => []
  | .addMember sender _ key =>
      match g.members.get? sender with
      | none => []
      | some t =>
          let s := t.placeMember key.publicKey
          key.publicKey ::
            (s.copathKeys ++ s.offPathKeys (leafToNodeIndex t.numLeaves))
  | .removeMember sender leafIndex _ =>
      match g.members.get? sender with
      | none => []
      | some t =>
          match directPath leafIndex t.numLeaves with
          | none => []
          | some removedPath =>
              (t.blankMember leafIndex g.nextKey removedPath).copathKeys
  | .update sender =>
      match g.members.get? sender with
      | none => []
      | some t => (t.rekeyLeaf g.nextKey).copathKeys

/-- The operation does not add `member` and seals to no key of `D`. -/
def Spares (member : ℕ) (D : Set PrivateKey) (g : Group)
    (op : Operation) : Prop :=
  (∀ sender key, op ≠ .addMember sender member key) ∧
    ∀ sk ∈ D, sk.publicKey ∉ g.recipients op

/-! ## The invariant -/

/-- The members listed in `absent` are gone, the keys they held are in `D`, no
emitted box leads out of `D`, and every root key after the first `count` is
numbered from `base` on, where no key of `D` is. -/
structure Confined (base count : ℕ) (absent : List ℕ) (D : Set PrivateKey)
    (g : Group) : Prop where
  placed : ∀ id t, g.members.get? id = some t → ∃ i, t.Placed i
  stored : ∀ id t, g.members.get? id = some t → t.Holds (·.id < g.nextKey)
  held_lt : ∀ p ∈ g.held, p.2.id < g.nextKey
  emitted_lt : ∀ pk sk, Sealed.box pk sk ∈ g.emitted → sk.id < g.nextKey
  base_le : base ≤ g.nextKey
  bound : ∀ sk ∈ D, sk.id < base
  gone : ∀ id ∈ absent, g.members.get? id = none
  held : ∀ id ∈ absent, ∀ sk, (id, sk) ∈ g.held → sk ∈ D
  closed : ClosedUnder g.boxes D
  installed : ∀ sk ∈ g.rootKeys.drop count, base ≤ sk.id
  count_le : count ≤ g.rootKeys.length

section Confined

variable {base count : ℕ} {absent : List ℕ} {D : Set PrivateKey} {g : Group}

theorem Confined.recordHeld (h : g.Confined base count absent D) :
    g.recordHeld.Confined base count absent D where
  placed := h.placed
  stored := h.stored
  held_lt := by
    intro p hp
    rcases List.mem_append.1 hp with hp | hp
    · exact h.held_lt p hp
    · obtain ⟨⟨id, t⟩, hmem, hp⟩ := List.mem_flatMap.1 hp
      obtain ⟨sk, hsk, rfl⟩ := List.mem_map.1 hp
      obtain ⟨y, hy⟩ := mem_privateKeys hsk
      exact h.stored id t (g.members.mem_entries_iff.1 hmem) y sk hy
  emitted_lt := h.emitted_lt
  base_le := h.base_le
  bound := h.bound
  gone := h.gone
  held := by
    intro id hid sk hp
    rcases List.mem_append.1 hp with hp | hp
    · exact h.held id hid sk hp
    · obtain ⟨⟨id', t⟩, hmem, hp⟩ := List.mem_flatMap.1 hp
      obtain ⟨sk', -, heq⟩ := List.mem_map.1 hp
      have hid' : id' = id := congrArg Prod.fst heq
      subst hid'
      have hnone := h.gone id' hid
      rw [g.members.mem_entries_iff.1 hmem] at hnone
      cases hnone
  closed := h.closed
  installed := h.installed
  count_le := h.count_le

theorem Confined.commit {α : Type} {sender i : ℕ} {t : Tree}
    {out : Outcome α} (h : g.Confined base count absent D)
    (hsender : g.members.get? sender = some t)
    (hplaced : out.tree.Placed i) (hholds : out.tree.Holds (·.id < out.fresh))
    (hfresh : g.nextKey ≤ out.fresh) :
    (g.commit sender out).Confined base count absent D where
  placed := by
    intro id t' ht'
    rw [get?_commit] at ht'
    split at ht'
    · cases ht'
      exact ⟨i, hplaced⟩
    · exact h.placed id t' ht'
  stored := by
    intro id t' ht'
    rw [get?_commit] at ht'
    split at ht'
    · cases ht'
      exact hholds
    · exact (h.stored id t' ht').mono fun sk hsk => lt_of_lt_of_le hsk hfresh
  held_lt := fun p hp => lt_of_lt_of_le (h.held_lt p hp) hfresh
  emitted_lt := fun pk sk hbox =>
    lt_of_lt_of_le (h.emitted_lt pk sk hbox) hfresh
  base_le := h.base_le.trans hfresh
  bound := h.bound
  gone := by
    intro id hid
    rw [get?_commit, if_neg, h.gone id hid]
    rintro rfl
    rw [h.gone id hid] at hsender
    cases hsender
  held := h.held
  closed := h.closed
  installed := by
    intro sk hsk
    rw [Group.commit, List.drop_append_of_le_length h.count_le,
      List.mem_append] at hsk
    rcases hsk with hsk | hsk
    · exact h.installed sk hsk
    · rw [Option.mem_toList, installedRoot, Option.filter_eq_some_iff] at hsk
      have hle : g.nextKey ≤ sk.id := of_decide_eq_true hsk.2
      exact h.base_le.trans hle
  count_le := by
    rw [Group.commit, List.length_append]
    exact h.count_le.trans (Nat.le_add_right _ _)

/-- Emitting boxes that no key of `D` opens. -/
theorem Confined.closed_append {nodes : List PathNodeUpdate}
    (h : g.Confined base count absent D)
    (hforeign : ∀ pathNode ∈ nodes, ∀ pk key,
      pathNode.encryptedPrivateKey = .box pk key →
      ∀ sk ∈ D, sk.publicKey ≠ pk) :
    ClosedUnder
      {p | Sealed.box p.1.publicKey p.2 ∈ g.emitted ++ sealedKeys nodes}
      D := by
  intro sk p hsk hbox
  rcases List.mem_append.1 hbox with hbox | hbox
  · exact h.closed sk p hsk hbox
  · obtain ⟨pathNode, hnode, heq⟩ := List.mem_map.1 hbox
    exact absurd rfl (hforeign pathNode hnode _ _ heq sk hsk)

theorem emitted_lt_append {nodes : List PathNodeUpdate}
    (h : g.Confined base count absent D)
    (hlt : ∀ pathNode ∈ nodes, ∀ pk key,
      pathNode.encryptedPrivateKey = .box pk key → key.id < g.nextKey) :
    ∀ pk sk, Sealed.box pk sk ∈ g.emitted ++ sealedKeys nodes →
      sk.id < g.nextKey := by
  intro pk sk hbox
  rcases List.mem_append.1 hbox with hbox | hbox
  · exact h.emitted_lt pk sk hbox
  · obtain ⟨pathNode, hnode, heq⟩ := List.mem_map.1 hbox
    exact hlt pathNode hnode pk sk heq

theorem Confined.deliver {sender : ℕ} {u : PathUpdate}
    (h : g.Confined base count absent D)
    (hlt : ∀ pathNode ∈ u.nodes, ∀ pk key,
      pathNode.encryptedPrivateKey = .box pk key → key.id < g.nextKey)
    (hforeign : ∀ pathNode ∈ u.nodes, ∀ pk key,
      pathNode.encryptedPrivateKey = .box pk key →
      ∀ sk ∈ D, sk.publicKey ≠ pk) :
    (g.deliver sender u).Confined base count absent D where
  placed := by
    intro id t ht
    simp only [Group.deliver, InsertionMap.get?_mapValues,
      Option.map_eq_some_iff] at ht
    obtain ⟨m, hm, rfl⟩ := ht
    obtain ⟨i, hi⟩ := h.placed id m hm
    refine ⟨i, ?_⟩
    split
    · exact hi
    · exact processPathUpdate_rule (Q := (Placed · i)) hi.myLeafIndex hi.lt
        (fun t ht => ht.setNode fun _ => rfl)
        (fun t n o ht _ _ => ht.setNode fun _ => rfl) hi
  stored := by
    intro id t ht
    simp only [Group.deliver, InsertionMap.get?_mapValues,
      Option.map_eq_some_iff] at ht
    obtain ⟨m, hm, rfl⟩ := ht
    have hstored := h.stored id m hm
    split
    · exact hstored
    · obtain ⟨i, hi⟩ := h.placed id m hm
      refine processPathUpdate_rule (Q := Holds (·.id < g.nextKey))
        hi.myLeafIndex hi.lt (fun t ht => ht.setNode (by simp))
        (fun t n o ht hn hopened => ht.setNode fun sk hsk => ?_) hstored
      obtain ⟨⟨pk, hbox⟩, -⟩ := hopened sk hsk
      exact hlt n hn pk sk hbox
  held_lt := h.held_lt
  emitted_lt := emitted_lt_append h hlt
  base_le := h.base_le
  bound := h.bound
  gone := by
    intro id hid
    simp [Group.deliver, InsertionMap.get?_mapValues, h.gone id hid]
  held := h.held
  closed := h.closed_append hforeign
  installed := h.installed
  count_le := h.count_le

theorem Confined.welcome {joiner j : ℕ} {w : Welcome} {key : PrivateKey}
    (h : g.Confined base count absent D) (hjoiner : joiner ∉ absent)
    (hkey : key.id < g.nextKey) (hleaf : w.leafIndex = 2 * j)
    (hentries : ∀ e ∈ w.treeNodePublicKeys, e.nodeIndex ≠ w.leafIndex)
    (hlt : ∀ pathNode ∈ w.pathKeys, ∀ pk sk,
      pathNode.encryptedPrivateKey = .box pk sk → sk.id < g.nextKey)
    (hforeign : ∀ pathNode ∈ w.pathKeys, ∀ pk key,
      pathNode.encryptedPrivateKey = .box pk key →
      ∀ sk ∈ D, sk.publicKey ≠ pk) :
    (g.welcome joiner w key).Confined base count absent D where
  placed := by
    intro id t ht
    simp only [Group.welcome, InsertionMap.get?_set] at ht
    split at ht
    · cases ht
      refine ⟨j, processWelcome_rule (Q := (Placed · j)) hleaf ?_ ?_ ?_⟩
      · intro n hn
        refine ⟨rfl, hn, ?_⟩
        simp [publicKeyAt_setNode, keyLeaf]
      · intro t n sk ht _ _
        exact ht.setNode fun _ => rfl
      · intro t type e ht he
        exact ht.setNode fun heq =>
          absurd (heq.trans hleaf.symm) (hentries e he)
    · exact h.placed id t ht
  stored := by
    intro id t ht
    simp only [Group.welcome, InsertionMap.get?_set] at ht
    split at ht
    · cases ht
      refine processWelcome_rule (Q := Holds (·.id < g.nextKey)) hleaf
        ?_ ?_ ?_
      · intro n _ y sk hy
        rw [privateKeyAt_setNode] at hy
        split at hy
        · simp only [keyLeaf, Option.some.injEq] at hy
          rw [← hy]
          exact hkey
        · simp [privateKeyAt] at hy
      · intro t n sk ht hn hbox
        obtain ⟨pk, hbox⟩ := hbox
        apply ht.setNode
        rintro key ⟨⟩
        exact hlt n hn pk sk hbox
      · intro t type e ht _
        exact ht.setNode (by simp)
    · exact h.stored id t ht
  held_lt := h.held_lt
  emitted_lt := emitted_lt_append h hlt
  base_le := h.base_le
  bound := h.bound
  gone := by
    intro id hid
    have hne : id ≠ joiner := fun heq => hjoiner (heq ▸ hid)
    simp [Group.welcome, InsertionMap.get?_set, hne, h.gone id hid]
  held := h.held
  closed := h.closed_append hforeign
  installed := h.installed
  count_le := h.count_le

theorem Confined.erase (h : g.Confined base count absent D) (id : ℕ) :
    Confined base count absent D
      { g with members := g.members.erase id } where
  placed := by
    intro id' t ht
    rw [InsertionMap.get?_erase] at ht
    split at ht
    · cases ht
    · exact h.placed id' t ht
  stored := by
    intro id' t ht
    rw [InsertionMap.get?_erase] at ht
    split at ht
    · cases ht
    · exact h.stored id' t ht
  held_lt := h.held_lt
  emitted_lt := h.emitted_lt
  base_le := h.base_le
  bound := h.bound
  gone := by
    intro id' hid'
    rw [InsertionMap.get?_erase]
    split
    · rfl
    · exact h.gone id' hid'
  held := h.held
  closed := h.closed
  installed := h.installed
  count_le := h.count_le

/-- A committed path update, delivered or not, after a tree `s` whose copath
keys are foreign to `D`. -/
theorem Confined.exchange {α : Type} {sender i fresh : ℕ} {t s : Tree}
    (out : Outcome α) (h : g.Confined base count absent D)
    (hsender : g.members.get? sender = some t) (hs : s.Placed i)
    (hholds : s.Holds (·.id < fresh)) (hfresh : g.nextKey ≤ fresh)
    (htree : out.tree = (s.updatePath fresh).tree)
    (hnext : out.fresh = (s.updatePath fresh).fresh) :
    (g.commit sender out).Confined base count absent D := by
  obtain ⟨hplaced, hstored, hle, -⟩ := updatePath_sound hs hholds
  refine h.commit hsender (i := i) ?_ ?_ ?_
  · rw [htree]
    exact hplaced
  · rw [htree, hnext]
    exact hstored
  · rw [hnext]
    exact hfresh.trans hle

theorem foreign_of_notMem {pk : PublicKey} {keys : List PublicKey}
    (hspare : ∀ sk ∈ D, sk.publicKey ∉ keys) (hpk : pk ∈ keys) :
    ∀ sk ∈ D, sk.publicKey ≠ pk := by
  rintro sk hsk rfl
  exact hspare sk hsk hpk

theorem Confined.update {sender : ℕ} (h : g.Confined base count absent D)
    (hspare : ∀ sk ∈ D, sk.publicKey ∉ g.recipients (.update sender)) :
    (g.step (.update sender)).Confined base count absent D := by
  rcases hsender : g.members.get? sender with _ | t
  · simpa [step, hsender] using h
  · obtain ⟨i, hi⟩ := h.placed sender t hsender
    have hs := (rekeyLeaf_placed hi.myLeafIndex hi.lt g.nextKey).1
    have hholds := rekeyLeaf_holds (h.stored sender t hsender)
    have hcommit := (h.exchange (t.update g.nextKey) hsender hs hholds
      (Nat.le_succ _) rfl rfl).recordHeld
    simp only [recipients, hsender] at hspare
    obtain ⟨-, -, -, hsealed⟩ := updatePath_sound hs hholds
    simp only [step, hsender]
    split
    · exact hcommit
    · rename_i u secret hresult
      refine (hcommit.deliver ?_ ?_).recordHeld
      · intro pathNode hnode pk key hbox
        exact (hsealed u secret hresult pathNode hnode pk key hbox).2
      · intro pathNode hnode pk key hbox
        exact foreign_of_notMem hspare
          (hsealed u secret hresult pathNode hnode pk key hbox).1

theorem Confined.removeMember {sender leafIndex gone : ℕ}
    (h : g.Confined base count absent D)
    (hspare : ∀ sk ∈ D,
      sk.publicKey ∉ g.recipients (.removeMember sender leafIndex gone)) :
    (g.step (.removeMember sender leafIndex gone)).Confined base count absent
      D := by
  rcases hsender : g.members.get? sender with _ | t
  · simpa [step, hsender] using h
  · obtain ⟨i, hi⟩ := h.placed sender t hsender
    have hstored := h.stored sender t hsender
    rcases hpath : directPath leafIndex t.numLeaves with _ | path
    · have hne : leafIndex ≠ 2 * i := by
        rintro rfl
        rcases Nat.lt_or_ge 1 t.numLeaves with hn | hn
        · rw [directPath_leaf hn hi.lt] at hpath
          cases hpath
        · simp [directPath, hn] at hpath
      have hout : t.removeMember leafIndex g.nextKey =
          ⟨t.setNode (blankLeaf leafIndex), g.nextKey, .error .treeMath⟩ := by
        rw [Tree.removeMember, hpath]
      simp only [step, hsender, hout]
      refine (h.commit hsender (i := i) (hi.setNode ?_)
        (hstored.setNode (by simp [blankLeaf])) le_rfl).recordHeld
      intro heq
      exact absurd heq hne
    · have hs := (blankMember_placed hi leafIndex g.nextKey path).1
      have hholds := blankMember_holds leafIndex path hstored
      have hout : t.removeMember leafIndex g.nextKey =
          (t.blankMember leafIndex g.nextKey path).updatePath
            (g.nextKey + 1) := by
        rw [Tree.removeMember, hpath]
      have hcommit := (h.exchange (t.removeMember leafIndex g.nextKey)
        hsender hs hholds (Nat.le_succ _) (by rw [hout])
        (by rw [hout])).recordHeld
      simp only [recipients, hsender, hpath] at hspare
      obtain ⟨-, -, -, hsealed⟩ := updatePath_sound hs hholds
      rw [← hout] at hsealed
      simp only [step, hsender]
      split
      · exact hcommit
      · rename_i u secret hresult
        refine ((hcommit.erase gone).deliver ?_ ?_).recordHeld
        · intro pathNode hnode pk key hbox
          exact (hsealed u secret hresult pathNode hnode pk key hbox).2
        · intro pathNode hnode pk key hbox
          exact foreign_of_notMem hspare
            (hsealed u secret hresult pathNode hnode pk key hbox).1

theorem Confined.addMember {sender joiner : ℕ} {key : PrivateKey}
    (h : g.Confined base count absent D) (hjoiner : joiner ∉ absent)
    (hspare : ∀ sk ∈ D,
      sk.publicKey ∉ g.recipients (.addMember sender joiner key)) :
    (g.step (.addMember sender joiner key)).Confined base count absent D := by
  rcases hsender : g.members.get? sender with _ | t
  · simpa [step, hsender] using h
  rcases hnew : g.members.get? joiner with _ | t'
  · by_cases hkey : g.nextKey ≤ key.id
    · simpa [step, hsender, hnew, hkey] using h
    obtain ⟨i, hi⟩ := h.placed sender t hsender
    have hstored := h.stored sender t hsender
    have hs := placeMember_placed hi key.publicKey
    have hholds : (t.placeMember key.publicKey).Holds (·.id < g.nextKey) :=
      Holds.setNode (by exact hstored) (by simp)
    set out := t.addMember key.publicKey g.nextKey with houtDef
    have hcommit := h.exchange out hsender hs hholds le_rfl rfl rfl
    obtain ⟨-, hholds', hle, hsealed⟩ := updatePath_sound hs hholds
    simp only [recipients, hsender, List.mem_cons, List.mem_append, not_or]
      at hspare
    simp only [step, hsender, hnew, if_neg hkey, ← houtDef]
    split
    · exact hcommit.recordHeld
    · rename_i u w secret hresult
      obtain ⟨hpath, hleaf, hentries, hwelcome⟩ := addMember_sealed hi hresult
      have hdeliver : ((g.commit sender out).deliver sender u).Confined base
          count absent D := by
        apply hcommit.deliver
        · intro pathNode hnode pk sk hbox
          exact (hsealed u secret hpath pathNode hnode pk sk hbox).2
        · intro pathNode hnode pk sk hbox known hknown heq
          have hmem := (hsealed u secret hpath pathNode hnode pk sk hbox).1
          exact (hspare known hknown).2.1 (heq ▸ hmem)
      refine (hdeliver.welcome hjoiner ?_ hleaf hentries ?_ ?_).recordHeld
      · exact lt_of_lt_of_le (Nat.lt_of_not_le hkey) hle
      · intro pathNode hnode pk sk hbox
        obtain ⟨-, y, hy⟩ := hwelcome pathNode hnode pk sk hbox
        exact hholds' y sk hy
      · intro pathNode hnode pk sk hbox known hknown heq
        obtain ⟨hrecipient, -⟩ := hwelcome pathNode hnode pk sk hbox
        rcases hrecipient with rfl | hlo | hmem
        · exact (hspare known hknown).1 heq
        · have hlt := h.bound known hknown
          have hbase := h.base_le
          rw [← heq] at hlo
          have hlo' : g.nextKey ≤ known.id := hlo
          omega
        · exact (hspare known hknown).2.2 (heq ▸ hmem)
  · simpa [step, hsender, hnew] using h

/-- One step: the rule for every operation that spares the absent members and
`D`. -/
theorem Confined.step {op : Operation}
    (h : g.Confined base count absent D)
    (hspare : ∀ id ∈ absent, ∀ sender key, op ≠ .addMember sender id key)
    (hforeign : ∀ sk ∈ D, sk.publicKey ∉ g.recipients op) :
    (g.step op).Confined base count absent D := by
  cases op with
  | generate =>
      exact ⟨h.placed,
        fun id t ht => (h.stored id t ht).mono fun sk hsk =>
          Nat.lt_succ_of_lt hsk,
        fun p hp => Nat.lt_succ_of_lt (h.held_lt p hp),
        fun pk sk hbox => Nat.lt_succ_of_lt (h.emitted_lt pk sk hbox),
        h.base_le.trans (Nat.le_succ _), h.bound, h.gone, h.held, h.closed,
        h.installed, h.count_le⟩
  | addMember sender joiner key =>
      exact h.addMember (fun hmem => hspare joiner hmem sender key rfl)
        hforeign
  | removeMember sender leafIndex gone => exact h.removeMember hforeign
  | update sender => exact h.update hforeign

end Confined

/-! ## Revocation along runs -/

theorem found_confined (sk : PrivateKey) :
    (found sk).Confined 0 0 [] ∅ := by
  have hget : ∀ id t, (found sk).members.get? id = some t →
      t = initializeTree sk := by
    intro id t ht
    simp only [found, InsertionMap.get?_set] at ht
    split at ht
    · cases ht
      rfl
    · cases ht
  refine ⟨?_, ?_, ?_, by simp [found], Nat.zero_le _, by simp, by simp,
    by simp, by simp [ClosedUnder], by simp [found], Nat.zero_le _⟩
  · intro id t ht
    rw [hget id t ht]
    refine ⟨0, rfl, Nat.one_pos, ?_⟩
    simp [initializeTree, publicKeyAt_setNode, keyLeaf]
  · intro id t ht y key hy
    rw [hget id t ht, initializeTree, privateKeyAt_setNode] at hy
    split at hy
    · simp only [keyLeaf, Option.some.injEq] at hy
      rw [← hy]
      exact Nat.lt_succ_self _
    · simp [privateKeyAt] at hy
  · intro p hp
    simp only [found, List.mem_singleton] at hp
    rw [hp]
    exact Nat.lt_succ_self _

/-- After any run, keys that were held or sealed were generated. -/
theorem exec_confined (sk : PrivateKey) (operations : List Operation) :
    (exec step (found sk) operations).Confined 0 0 [] ∅ := by
  refine exec_invariant_of_forall ?_ operations (found_confined sk)
  intro g op h
  exact h.step (by simp) (by simp)

theorem derivable_lt {g : Group} {base count : ℕ} {absent : List ℕ}
    {D : Set PrivateKey} (h : g.Confined base count absent D) {member : ℕ}
    {sk : PrivateKey} (hsk : sk ∈ g.derivable member) :
    sk.id < g.nextKey := by
  rcases hsk.known_or_boxed with hknown | ⟨opener, hbox⟩
  · exact h.held_lt _ hknown
  · exact h.emitted_lt _ _ hbox

/-- When a member is gone, it is confined to what it can derive then. -/
theorem confined_of_gone {g : Group} {member : ℕ}
    (h : g.Confined 0 0 [] ∅) (hgone : g.members.get? member = none) :
    g.Confined g.nextKey g.rootKeys.length [member]
      (g.derivable member) where
  placed := h.placed
  stored := h.stored
  held_lt := h.held_lt
  emitted_lt := h.emitted_lt
  base_le := le_rfl
  bound := fun _ hsk => derivable_lt h hsk
  gone := by
    intro id hid
    rw [List.mem_singleton.1 hid]
    exact hgone
  held := by
    intro id hid sk hsk
    rw [List.mem_singleton.1 hid] at hsk
    exact Derivable.known hsk
  closed := closedUnder_derivable _ _
  installed := by simp
  count_le := le_rfl

theorem Confined.not_derivable {g : Group} {base count member : ℕ}
    {D : Set PrivateKey} (h : g.Confined base count [member] D)
    {key : PrivateKey} (hkey : key ∈ g.rootKeys.drop count) :
    key ∉ g.derivable member := by
  intro hderivable
  have hmem : key ∈ D :=
    Derivable.mem_of_closed (fun sk hsk => h.held member (by simp) sk hsk)
      h.closed hderivable
  have hlt := h.bound key hmem
  have hle := h.installed key hkey
  omega

/-- Once `removeMember` has removed `member`, no root key that is installed
later is derivable by it, in every continuation whose operations do not add it
again and seal to no key it could derive at its removal. -/
theorem removed_derives_no_root (sk : PrivateKey) (before : List Operation)
    (sender leafIndex member : ℕ) (removed : Group)
    (hremoved : removed = exec step (found sk)
      (before ++ [.removeMember sender leafIndex member]))
    (hgone : removed.members.get? member = none) (later : List Operation)
    (hrun : Guarded step (Spares member (removed.derivable member)) removed
      later) :
    ∀ key ∈ (exec step removed later).rootKeys.drop removed.rootKeys.length,
      key ∉ (exec step removed later).derivable member := by
  have hstart : removed.Confined removed.nextKey removed.rootKeys.length
      [member] (removed.derivable member) := by
    refine confined_of_gone ?_ hgone
    rw [hremoved]
    exact exec_confined sk _
  have hstep : ∀ (g : Group) op,
      g.Confined removed.nextKey removed.rootKeys.length [member]
        (removed.derivable member) →
      Spares member (removed.derivable member) g op →
      (g.step op).Confined removed.nextKey removed.rootKeys.length [member]
        (removed.derivable member) := by
    intro g op h hspares
    refine h.step ?_ hspares.2
    intro id hid
    rw [List.mem_singleton.1 hid]
    exact hspares.1
  have hend := exec_invariant hstep later removed hstart hrun
  intro key hkey
  exact hend.not_derivable hkey

/-- Whether an operation adds the member. -/
def addsMember (member : ℕ) : Operation → Bool
  | .addMember _ joiner _ => decide (joiner = member)
  | _ => false

/-- The operation does not add `member` and seals only to keys numbered from
`base` on, a sufficient condition that can be evaluated. -/
def sealsToRecent (base member : ℕ) (g : Group) (op : Operation) : Bool :=
  !addsMember member op && (g.recipients op).all (decide <| base ≤ ·.id)

theorem spares_of_recent {base member : ℕ} {D : Set PrivateKey}
    (hD : ∀ sk ∈ D, sk.id < base) (g : Group) (op : Operation)
    (h : sealsToRecent base member g op = true) : Spares member D g op := by
  rw [sealsToRecent, Bool.and_eq_true, List.all_eq_true] at h
  constructor
  · rintro sender key rfl
    simp [addsMember] at h
  · intro sk hsk hmem
    have hle : base ≤ sk.id := of_decide_eq_true (h.2 _ hmem)
    have hlt := hD sk hsk
    omega

theorem derivable_of_box {g : Group} {member : ℕ} (opener : PrivateKey)
    {key : PrivateKey} (hheld : (member, opener) ∈ g.held)
    (hbox : Sealed.box opener.publicKey key ∈ g.emitted) :
    key ∈ g.derivable member := by
  have hknown : opener ∈ g.derivable member := Derivable.known hheld
  exact Derivable.opened hknown hbox

/-- The second member of a pair removes the founder. -/
def founderRemoved : Group :=
  exec step (found ⟨0⟩)
    ([.generate, .addMember 0 1 ⟨1⟩] ++ [.removeMember 1 0 0])

/-- The survivor adds a member and updates. -/
theorem removed_founder_derives_no_root :
    (exec step founderRemoved [.generate, .addMember 1 2 ⟨5⟩,
        .update 1]).rootKeys.drop founderRemoved.rootKeys.length =
        [⟨7⟩, ⟨10⟩] ∧
      ∀ key ∈ (exec step founderRemoved [.generate, .addMember 1 2 ⟨5⟩,
          .update 1]).rootKeys.drop founderRemoved.rootKeys.length,
        key ∉ (exec step founderRemoved [.generate, .addMember 1 2 ⟨5⟩,
          .update 1]).derivable 0 := by
  have hnext : founderRemoved.nextKey = 5 := by decide +kernel
  have hbound : ∀ sk ∈ founderRemoved.derivable 0, sk.id < 5 := by
    intro sk hsk
    rw [← hnext]
    exact derivable_lt (exec_confined _ _) hsk
  have hrun : Guarded step (Spares 0 (founderRemoved.derivable 0))
      founderRemoved [.generate, .addMember 1 2 ⟨5⟩, .update 1] :=
    Guarded.imp (spares_of_recent hbound) (by decide +kernel)
  exact ⟨by decide +kernel, removed_derives_no_root ⟨0⟩
    [.generate, .addMember 0 1 ⟨1⟩] 1 0 0 founderRemoved rfl
    (Option.isNone_iff_eq_none.1 (by decide +kernel)) _ hrun⟩

/-- The second member removed the founder and added a third, who added a
fourth. -/
def chain : Group :=
  exec step founderRemoved [.generate, .addMember 1 2 ⟨5⟩, .generate,
    .addMember 2 3 ⟨7⟩]

/-- The third member is removed by the fourth; the second one follows but keeps
the key of the removed leaf and seals its next root key to it. -/
theorem removed_derives_root :
    (chain.members.get? 2).bind Tree.myLeafIndex = some 4 ∧
      (chain.step (.removeMember 3 4 2)).members.keys = [1, 3] ∧
      (chain.step (.removeMember 3 4 2)).thrown = [] ∧
      ∃ key ∈ ((chain.step (.removeMember 3 4 2)).step
          (.update 1)).rootKeys.drop
            (chain.step (.removeMember 3 4 2)).rootKeys.length,
        key ∈ ((chain.step (.removeMember 3 4 2)).step
          (.update 1)).derivable 2 := by
  have hheld : (2, (⟨5⟩ : PrivateKey)) ∈ ((chain.step
      (.removeMember 3 4 2)).step (.update 1)).held := by decide +kernel
  have hbox : Sealed.box ⟨5⟩ ⟨16⟩ ∈ ((chain.step
      (.removeMember 3 4 2)).step (.update 1)).emitted := by decide +kernel
  exact ⟨by decide +kernel, by decide +kernel, by decide +kernel, ⟨16⟩,
    by decide +kernel, derivable_of_box ⟨5⟩ hheld hbox⟩

end Collabswarm.BeeKEM.Group
