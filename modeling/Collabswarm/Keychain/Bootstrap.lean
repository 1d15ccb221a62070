import Mathlib.Data.List.TakeWhile
import Collabswarm.Keychain.Keychain

/-!
# Joiners and later key updates

A joiner fills its empty keychain from `currentKeyChange` or `historySince` of a
member and then merges the change of every key that the member adds.  The slice
is a document of its own, so later changes depend on operations the joiner does
not have; only the full history that `historySince` falls back to connects.
-/

namespace Collabswarm.Keychain

variable {I K : Type} [DecidableEq I] [DecidableEq K]

/-- What a joiner's keychain is filled from. -/
inductive Bootstrap (I : Type) where
  | currentKeyChange
  | historySince (keyId : I)
deriving DecidableEq

/-- The change that a member sends to a joiner. -/
def Bootstrap.change (flavour : Flavour) (opIds : ℕ → ℕ)
    (kc : Keychain I K) : Bootstrap I →
      Except KeychainError (List (PushOp (I × K)))
  | .currentKeyChange => kc.currentKeyChange flavour opIds
  | .historySince keyId => kc.historySince flavour keyId opIds

/-- The member falls back to its full history. -/
def Bootstrap.FullHistory (kc : Keychain I K) : Bootstrap I → Prop
  | .currentKeyChange => False
  | .historySince keyId => ∀ entry ∈ kc.doc.contents, entry.1 ≠ keyId

/-- The member adds a key and the joiner merges the change. -/
def distribute (flavour : Flavour) (s : Keychain I K × Keychain I K)
    (a : Addition I K) : Keychain I K × Keychain I K :=
  ((a.run flavour s.1).1, s.2.merge (a.run flavour s.1).2)

/-- The joiner has a key, and it is its current one. -/
def Follows (joiner : Keychain I K) (entry : I × K) : Prop :=
  entry ∈ joiner.keys.1 ∧ joiner.current.1 = .ok entry

/-- After each merge the joiner has the key that was just added. -/
def FollowsAll (flavour : Flavour) (member joiner : Keychain I K)
    (additions : List (Addition I K)) : Prop :=
  Guarded (distribute flavour)
    (fun s a => (distribute flavour s a).2.Follows a.entry)
    (member, joiner) additions

/-- The library gives the operations of the slice and of the later calls new
and different numbers. -/
structure NumbersUnique (kc : Keychain I K) (opIds : ℕ → ℕ)
    (additions : List (Addition I K)) : Prop where
  slice_injective : Function.Injective opIds
  slice_new : ∀ n, kc.NewNumber (opIds n)
  additions_new : ∀ a ∈ additions, kc.NewNumber a.opId
  additions_nodup : (additions.map Addition.opId).Nodup
  disjoint : ∀ a ∈ additions, ∀ n, opIds n ≠ a.opId

/-! ## Single calls -/

section Calls

omit [DecidableEq I] [DecidableEq K]

theorem NewNumber.pushEntry {kc : Keychain I K} (hwf : kc.WellFormed)
    {flavour : Flavour} {opId n : ℕ} (h : kc.NewNumber n) (hne : n ≠ opId)
    (entry : I × K) : (kc.pushEntry flavour opId entry).NewNumber n := by
  intro op hop
  rcases List.mem_append.1 hop with hlog | hpending
  · rcases List.mem_append.1 hlog with hlog | hlast
    · exact h op (List.mem_append_left _ hlog)
    · rw [List.mem_singleton.1 hlast]
      refine ⟨hne, fun hdep => ?_⟩
      exact h.not_mem_ids (hwf.pushDeps_subset flavour hdep)
  · exact h op (List.mem_append_right _ hpending)

theorem getLast?_dropWhile {p : I × K → Bool} {entries : List (I × K)}
    (hne : entries.dropWhile p ≠ []) :
    (entries.dropWhile p).getLast? = entries.getLast? := by
  conv_rhs => rw [← List.takeWhile_append_dropWhile (p := p) (l := entries)]
  rw [List.getLast?_append_of_ne_nil _ hne]

theorem slice_append_singleton (flavour : Flavour) (opIds : ℕ → ℕ)
    (entries : List (I × K)) (entry : I × K) :
    slice flavour opIds (entries ++ [entry]) =
      (slice flavour opIds entries).pushEntry flavour
        (opIds entries.length) entry := by
  simp [slice, List.zipIdx_append]

/-- The slice shows the copied entries. -/
theorem slice_spec (flavour : Flavour) {opIds : ℕ → ℕ}
    (hinj : Function.Injective opIds) (entries : List (I × K)) :
    (slice flavour opIds entries).WellFormed ∧
      (slice flavour opIds entries).doc.contents = entries ∧
      (slice flavour opIds entries).doc.pending = [] ∧
      ∀ x ∈ (slice flavour opIds entries).doc.ids,
        ∃ n < entries.length, x = opIds n := by
  induction entries using List.reverseRecOn with
  | nil => exact ⟨new_wellFormed, rfl, rfl, by simp [slice, new, CausalLog.ids,
      CausalLog.empty]⟩
  | append_singleton entries entry ih =>
      obtain ⟨hwf, hcontents, hpending, hids⟩ := ih
      have hnew : (slice flavour opIds entries).NewNumber
          (opIds entries.length) := by
        intro op hop
        rw [CausalLog.all, hpending, List.append_nil] at hop
        have hnot : ∀ x ∈ (slice flavour opIds entries).doc.ids,
            opIds entries.length ≠ x := by
          rintro x hx rfl
          obtain ⟨n, hn, heq⟩ := hids _ hx
          exact absurd (hinj heq) (by omega)
        exact ⟨hnot _ (List.mem_map_of_mem hop),
          fun hdep => hnot _ (hwf.doc.deps_subset hop hdep) rfl⟩
      rw [slice_append_singleton]
      refine ⟨hwf.pushEntry flavour hnew entry, ?_, hpending, ?_⟩
      · rw [hwf.contents_pushEntry flavour hnew, hcontents]
      · intro x hx
        simp only [Keychain.pushEntry, CausalLog.push, CausalLog.ids,
          List.map_append, List.map_cons, List.map_nil, List.mem_append,
          List.mem_singleton] at hx
        rcases hx with hx | rfl
        · obtain ⟨n, hn, rfl⟩ := hids x hx
          exact ⟨n, by simp; omega, rfl⟩
        · exact ⟨entries.length, by simp, rfl⟩

end Calls

omit [DecidableEq K] in
/-- A joiner that has only merged follows a key if and only if it is the last
one of its list. -/
theorem follows_iff {joiner : Keychain I K} {entry : I × K}
    (hcache : joiner.cache = LRUCache.new 1000) :
    joiner.Follows entry ↔ joiner.doc.contents.getLast? = some entry := by
  have hnone : ∀ id, joiner.cache.map.get? id = none := by
    intro id
    rw [hcache]
    rfl
  have hkeys : joiner.keys.1 = joiner.doc.contents := by
    have himport : importEntry joiner.cache = id := by
      funext entry
      simp [importEntry, hnone]
    simp [keys, himport]
  have hcurrent : joiner.current.1 =
      joiner.doc.contents.getLast?.elim (.error .emptyCurrent) .ok := by
    rw [current]
    cases joiner.doc.contents.getLast? with
    | none => rfl
    | some entry => simp [LRUCache.get, hnone]
  rw [Follows, hkeys, hcurrent]
  cases hlast : joiner.doc.contents.getLast? with
  | none => simp
  | some last =>
      simp only [Option.elim_some, Except.ok.injEq, Option.some.injEq,
        and_iff_right_iff_imp]
      rintro rfl
      exact List.mem_of_getLast? hlast

omit [DecidableEq K] in
theorem Addition.run_wellFormed {kc : Keychain I K} (h : kc.WellFormed)
    (flavour : Flavour) {a : Addition I K} (hnew : kc.NewNumber a.opId) :
    (a.run flavour kc).1.WellFormed := by
  obtain ⟨⟨cache, hrun⟩, -⟩ := a.run_spec flavour kc
  rw [hrun]
  exact (h.pushEntry flavour hnew a.entry).cache cache

omit [DecidableEq K] in
theorem NewNumber.run {kc : Keychain I K} (hwf : kc.WellFormed)
    (flavour : Flavour) {a : Addition I K} {n : ℕ} (h : kc.NewNumber n)
    (hne : n ≠ a.opId) : (a.run flavour kc).1.NewNumber n := by
  obtain ⟨⟨cache, hrun⟩, -⟩ := a.run_spec flavour kc
  rw [hrun]
  exact h.pushEntry hwf hne a.entry

theorem NumbersUnique.distribute {opIds : ℕ → ℕ} {kc : Keychain I K}
    {a : Addition I K} {additions : List (Addition I K)}
    (h : NumbersUnique kc opIds (a :: additions)) (hwf : kc.WellFormed)
    (flavour : Flavour) (joiner : Keychain I K) :
    NumbersUnique (distribute flavour (kc, joiner) a).1 opIds additions := by
  have hnodup := h.additions_nodup
  rw [List.map_cons, List.nodup_cons] at hnodup
  refine ⟨h.slice_injective, ?_, ?_, hnodup.2,
    fun b hb => h.disjoint b (by simp [hb])⟩
  · exact fun n => (h.slice_new n).run hwf flavour (h.disjoint a (by simp) n)
  · intro b hb
    refine (h.additions_new b (by simp [hb])).run hwf flavour ?_
    intro heq
    exact hnodup.1 (heq ▸ List.mem_map_of_mem hb)

/-! ## A joiner with a slice -/

/-- The joiner shows the slice, and everything else it received depends on
operations outside the slice. -/
structure Detached (opIds : ℕ → ℕ) (tail : List (I × K))
    (member joiner : Keychain I K) : Prop where
  member_wf : member.WellFormed
  member_nonempty : member.doc.contents ≠ []
  slice_new : ∀ n, member.NewNumber (opIds n)
  joiner_wf : joiner.WellFormed
  joiner_cache : joiner.cache = LRUCache.new 1000
  contents : joiner.doc.contents = tail
  ids : ∀ x ∈ joiner.doc.ids, x ∈ Set.range opIds
  pending : ∀ op ∈ joiner.doc.pending, ∃ x ∈ op.deps, x ∉ Set.range opIds

theorem Detached.distribute {opIds : ℕ → ℕ} {tail : List (I × K)}
    {member joiner : Keychain I K} (h : Detached opIds tail member joiner)
    (flavour : Flavour) {a : Addition I K} (hnew : member.NewNumber a.opId)
    (hdisjoint : ∀ n, opIds n ≠ a.opId) :
    Detached opIds tail (distribute flavour (member, joiner) a).1
      (distribute flavour (member, joiner) a).2 := by
  obtain ⟨⟨cache, hmember⟩, hchange⟩ := a.run_spec flavour member
  have hnotRange : ∀ x ∈ member.doc.ids, x ∉ Set.range opIds := by
    rintro x hx ⟨n, rfl⟩
    exact (h.slice_new n).not_mem_ids hx
  have houtside : ∀ op ∈ (a.run flavour member).2,
      ∃ x ∈ op.deps, x ∉ Set.range opIds := by
    intro op hop
    rcases hchange op hop with rfl | hpending
    · obtain ⟨x, hx, hmem⟩ := exists_mem_pushDeps flavour h.member_nonempty
      exact ⟨x, hx, hnotRange x hmem⟩
    · have hstuck := h.member_wf.doc.stuck op hpending
      rw [← Bool.not_eq_true, CausalLog.ready_iff] at hstuck
      push Not at hstuck
      obtain ⟨x, hx, -⟩ := hstuck
      refine ⟨x, hx, ?_⟩
      rintro ⟨n, rfl⟩
      exact (h.slice_new n op (List.mem_append_right _ hpending)).2 hx
  have hlog : (Keychain.distribute flavour (member, joiner) a).2.doc.log =
      joiner.doc.log := by
    refine h.joiner_wf.doc.receive_log ?_
    intro op hop _
    have hop' : ∃ x ∈ op.deps, x ∉ Set.range opIds :=
      hop.elim (h.pending op) (houtside op)
    obtain ⟨x, hx, hrange⟩ := hop'
    exact ⟨x, hx, fun hmem => hrange (h.ids x hmem)⟩
  have hjoinerWf := h.joiner_wf.merge (a.run flavour member).2
  obtain ⟨-, hall, -, -, -⟩ :=
    joiner.doc.receive_spec (a.run flavour member).2
  refine ⟨a.run_wellFormed h.member_wf flavour hnew, ?_, ?_, hjoinerWf,
    h.joiner_cache, ?_, ?_, ?_⟩
  · have hcontents := h.member_wf.contents_pushEntry flavour hnew a.entry
    simp [Keychain.distribute, hmember, hcontents]
  · exact fun n => (h.slice_new n).run h.member_wf flavour (hdisjoint n)
  · rw [← h.contents, CausalLog.contents, CausalLog.contents,
      CausalLog.visible, CausalLog.visible, hlog]
  · rw [CausalLog.ids, hlog]
    exact h.ids
  · intro op hop
    rcases hall op (List.mem_append_right _ hop) with hold | hnew
    · rcases List.mem_append.1 hold with hold | hold
      · have hnodup := hjoinerWf.doc.nodup.of_map
        rw [CausalLog.all, List.nodup_append] at hnodup
        exact absurd rfl (hnodup.2.2 op (hlog ▸ hold) op hop)
      · exact h.pending op hold
    · exact houtside op hnew

/-- Such a joiner follows only a key that it has as its last one already. -/
theorem Detached.followsAll_iff {opIds : ℕ → ℕ} {tail : List (I × K)}
    (flavour : Flavour) :
    ∀ {additions : List (Addition I K)} {member joiner : Keychain I K},
      Detached opIds tail member joiner →
      NumbersUnique member opIds additions →
      (FollowsAll flavour member joiner additions ↔
        ∀ a ∈ additions, tail.getLast? = some a.entry) := by
  intro additions
  induction additions with
  | nil =>
      intro member joiner _ _
      simp [FollowsAll, Guarded]
  | cons a additions ih =>
      intro member joiner h hunique
      have hnew := hunique.additions_new a (by simp)
      have hnext := h.distribute flavour hnew (hunique.disjoint a (by simp))
      have hunique' := hunique.distribute h.member_wf flavour joiner
      have hstep : (Keychain.distribute flavour (member, joiner) a).2.Follows
          a.entry ↔ tail.getLast? = some a.entry := by
        rw [follows_iff hnext.joiner_cache, hnext.contents]
      have hrest := ih hnext hunique'
      rw [FollowsAll] at hrest ⊢
      simp only [Guarded, hstep, List.forall_mem_cons]
      rw [hrest]

/-! ## A joiner with the full history -/

/-- The joiner knows what the member applied, and nothing else. -/
structure Attached (member joiner : Keychain I K) : Prop where
  member_wf : member.WellFormed
  joiner_wf : joiner.WellFormed
  joiner_cache : joiner.cache = LRUCache.new 1000
  known : ∀ op ∈ member.doc.log, op ∈ joiner.doc.all
  nothing_else : ∀ op ∈ joiner.doc.all, op ∈ member.doc.all

omit [DecidableEq I] [DecidableEq K] in
theorem Attached.log_perm {member joiner : Keychain I K}
    (h : Attached member joiner) :
    joiner.doc.log.Perm member.doc.log :=
  h.member_wf.doc.log_perm h.joiner_wf.doc h.known
    fun op hop => h.nothing_else op (List.mem_append_left _ hop)

omit [DecidableEq I] [DecidableEq K] in
theorem Attached.contents {member joiner : Keychain I K}
    (h : Attached member joiner) :
    joiner.doc.contents = member.doc.contents := by
  rw [CausalLog.contents, CausalLog.contents,
    CausalLog.visible_eq_of_perm h.member_wf.doc.nodup_log h.log_perm]

/-- An operation of a message is known afterwards, when all that is known
afterwards has unique numbers. -/
theorem mem_all_merge {kc : Keychain I K} {member : Keychain I K}
    (hwf : member.WellFormed) {change : List (PushOp (I × K))}
    (hsub : ∀ op ∈ (kc.merge change).doc.all, op ∈ member.doc.all)
    {op : PushOp (I × K)} (hop : op ∈ change) (hmem : op ∈ member.doc.all) :
    op ∈ (kc.merge change).doc.all := by
  obtain ⟨-, -, -, hknown, -⟩ := kc.doc.receive_spec change
  obtain ⟨op', hop', hid⟩ := List.mem_map.1 (hknown op hop)
  have heq : op' = op :=
    hwf.doc.eq_of_id_eq (hsub op' hop') hmem hid
  exact heq ▸ hop'

theorem attached_history {kc : Keychain I K} (h : kc.WellFormed)
    (flavour : Flavour) : Attached kc (new.merge (kc.history flavour)) := by
  have hlog : ∀ op ∈ kc.doc.log, op ∈ kc.history flavour := by
    intro op hop
    cases flavour with
    | yjs => exact List.mem_append_left _ hop
    | automerge => exact hop
  have hhistory : ∀ op ∈ kc.history flavour, op ∈ kc.doc.all := by
    intro op hop
    cases flavour with
    | yjs => exact hop
    | automerge => exact List.mem_append_left _ hop
  have hsub : ∀ op ∈ (new.merge (kc.history flavour)).doc.all,
      op ∈ kc.doc.all := by
    intro op hop
    obtain ⟨-, hall, -, -, -⟩ := (new : Keychain I K).doc.receive_spec
      (kc.history flavour)
    rcases hall op hop with hold | hnew
    · cases hold
    · exact hhistory op hnew
  refine ⟨h, new_wellFormed.merge _, rfl, ?_, hsub⟩
  intro op hop
  exact mem_all_merge h hsub (hlog op hop) (List.mem_append_left _ hop)

theorem Attached.distribute {member joiner : Keychain I K}
    (h : Attached member joiner) (flavour : Flavour) {a : Addition I K}
    (hnew : member.NewNumber a.opId) :
    Attached (distribute flavour (member, joiner) a).1
      (distribute flavour (member, joiner) a).2 := by
  obtain ⟨⟨cache, hmember⟩, hchange⟩ := a.run_spec flavour member
  have hwf := a.run_wellFormed h.member_wf flavour hnew
  have hlog : (a.run flavour member).1.doc.log =
      member.doc.log ++ [member.entryOp flavour a.opId a.entry] := by
    rw [hmember]
    rfl
  have hpending : (a.run flavour member).1.doc.pending =
      member.doc.pending := by
    rw [hmember]
    rfl
  have hmono : ∀ op ∈ member.doc.all, op ∈ (a.run flavour member).1.doc.all := by
    intro op hop
    rw [CausalLog.all, hlog, hpending]
    rcases List.mem_append.1 hop with hop | hop <;> simp [hop]
  have hentry : member.entryOp flavour a.opId a.entry ∈
      (a.run flavour member).1.doc.all := by
    simp [CausalLog.all, hlog]
  have hsub : ∀ op ∈ (joiner.merge (a.run flavour member).2).doc.all,
      op ∈ (a.run flavour member).1.doc.all := by
    intro op hop
    obtain ⟨-, hall, -, -, -⟩ :=
      joiner.doc.receive_spec (a.run flavour member).2
    rcases hall op hop with hold | hmessage
    · exact hmono op (h.nothing_else op hold)
    · rcases hchange op hmessage with rfl | hold
      · exact hentry
      · exact hmono op (List.mem_append_right _ hold)
  refine ⟨hwf, h.joiner_wf.merge _, h.joiner_cache, ?_, hsub⟩
  intro op hop
  obtain ⟨-, -, hkept, -, -⟩ :=
    joiner.doc.receive_spec (a.run flavour member).2
  simp only [Keychain.distribute, hlog, List.mem_append,
    List.mem_singleton] at hop
  rcases hop with hop | rfl
  · exact hkept (h.known op hop)
  · exact mem_all_merge hwf hsub (a.entryOp_mem_run flavour member) hentry

/-- Such a joiner follows every key. -/
theorem Attached.followsAll {opIds : ℕ → ℕ} (flavour : Flavour) :
    ∀ {additions : List (Addition I K)} {member joiner : Keychain I K},
      Attached member joiner → NumbersUnique member opIds additions →
      FollowsAll flavour member joiner additions := by
  intro additions
  induction additions with
  | nil =>
      intro member joiner _ _
      trivial
  | cons a additions ih =>
      intro member joiner h hunique
      have hnew := hunique.additions_new a (by simp)
      have hnext := h.distribute flavour hnew
      refine ⟨?_, ih hnext (hunique.distribute h.member_wf flavour joiner)⟩
      obtain ⟨⟨cache, hmember⟩, -⟩ := a.run_spec flavour member
      have hcontents := h.member_wf.contents_pushEntry flavour hnew a.entry
      rw [follows_iff hnext.joiner_cache, hnext.contents]
      simp [Keychain.distribute, hmember, hcontents]

/-! ## Which joiners follow -/

/-- A joiner that merged a slice of the member's entries. -/
theorem detached_slice {kc : Keychain I K} (h : kc.WellFormed)
    {flavour : Flavour} {opIds : ℕ → ℕ} (hinj : Function.Injective opIds)
    (hnew : ∀ n, kc.NewNumber (opIds n)) (hne : kc.doc.contents ≠ [])
    (tail : List (I × K)) :
    Detached opIds tail kc
      (new.merge ((slice flavour opIds tail).history flavour)) := by
  obtain ⟨hwf, hcontents, hpending, hids⟩ := slice_spec flavour hinj tail
  have hattached := attached_history hwf flavour
  refine ⟨h, hne, hnew, hattached.joiner_wf, rfl, ?_, ?_, ?_⟩
  · rw [hattached.contents, hcontents]
  · intro x hx
    have hx' : x ∈ (slice flavour opIds tail).doc.ids :=
      (hattached.log_perm.map CausalOp.id).mem_iff.1 hx
    obtain ⟨n, -, rfl⟩ := hids x hx'
    exact ⟨n, rfl⟩
  · intro op hop
    have hmem := hattached.nothing_else op (List.mem_append_right _ hop)
    rw [CausalLog.all, hpending, List.append_nil] at hmem
    have happlied := hattached.log_perm.mem_iff.2 hmem
    have hnodup := hattached.joiner_wf.doc.nodup.of_map
    rw [CausalLog.all, List.nodup_append] at hnodup
    exact absurd rfl (hnodup.2.2 op happlied op hop)

omit [DecidableEq K] in
/-- What a member sends to a joiner: its history, or a slice that ends with
its last entry. -/
theorem Bootstrap.change_cases {flavour : Flavour} {opIds : ℕ → ℕ}
    {kc : Keychain I K} {b : Bootstrap I} {change : List (PushOp (I × K))}
    (h : b.change flavour opIds kc = .ok change) :
    (b.FullHistory kc ∧ change = kc.history flavour) ∨
      (¬ b.FullHistory kc ∧ kc.doc.contents ≠ [] ∧ ∃ tail,
        tail.getLast? = kc.doc.contents.getLast? ∧
        change = (slice flavour opIds tail).history flavour) := by
  cases b with
  | currentKeyChange =>
      rw [Bootstrap.change, Keychain.currentKeyChange] at h
      split at h
      · cases h
      · rename_i entry hlast
        cases h
        refine Or.inr ⟨id, ?_, [entry], by simp [hlast], rfl⟩
        intro hnil
        simp [hnil] at hlast
  | historySince keyId =>
      rw [Bootstrap.change, Keychain.historySince] at h
      split at h
      · cases h
      · rename_i hne
        split at h
        · rename_i hdrop
          cases h
          refine Or.inl ⟨?_, rfl⟩
          intro entry hentry
          simpa using List.dropWhile_eq_nil_iff.1 hdrop entry hentry
        · rename_i hdrop
          cases h
          refine Or.inr ⟨?_, hne, _, getLast?_dropWhile hdrop, rfl⟩
          intro hfull
          apply hdrop
          rw [List.dropWhile_eq_nil_iff]
          intro entry hentry
          simpa using hfull entry hentry

/-- A joiner follows every later key of the member if and only if it was given
the member's full history, or the later keys are all the key that was the
member's current one when it joined. -/
theorem followsAll_iff_fullHistory (flavour : Flavour)
    {member : Keychain I K} (hwf : member.WellFormed) (b : Bootstrap I)
    {opIds : ℕ → ℕ} {additions : List (Addition I K)}
    (hunique : NumbersUnique member opIds additions)
    {change : List (PushOp (I × K))}
    (hchange : b.change flavour opIds member = .ok change) :
    FollowsAll flavour member (new.merge change) additions ↔
      b.FullHistory member ∨
        ∀ a ∈ additions, member.doc.contents.getLast? = some a.entry := by
  rcases Bootstrap.change_cases hchange with
    ⟨hfull, rfl⟩ | ⟨hslice, hne, tail, hlast, rfl⟩
  · refine iff_of_true ?_ (Or.inl hfull)
    exact (attached_history hwf flavour).followsAll flavour hunique
  · rw [(detached_slice hwf hunique.slice_injective hunique.slice_new hne
      tail).followsAll_iff flavour hunique, hlast]
    simp [hslice]

/-- A keychain with one key. -/
def oneKey : Keychain ℕ ℕ := (new.add .yjs 1 10 100).1

theorem oneKey_wellFormed : oneKey.WellFormed :=
  (new_wellFormed.pushEntry .yjs (by intro op hop; cases hop) _).cache _

theorem oneKey_numbersUnique :
    NumbersUnique oneKey (50 + ·) [.add 2 11 101, .addEpochKey 3 12 102] := by
  have hnew : ∀ n, 2 ≤ n → oneKey.NewNumber n := by
    intro n hn op hop
    have hop' : op ∈ [(⟨1, [], [], (10, 100)⟩ : PushOp (ℕ × ℕ))] := hop
    rw [List.mem_singleton] at hop'
    rw [hop']
    exact ⟨by simp; omega, by simp⟩
  refine ⟨add_right_injective 50, fun n => hnew _ (by omega), ?_, by decide,
    ?_⟩
  · intro a ha
    have ha' : 2 ≤ a.opId := by
      rcases List.mem_pair.1 ha with rfl | rfl <;> decide
    exact hnew _ ha'
  · intro a ha n
    have ha' : a.opId < 50 := by
      rcases List.mem_pair.1 ha with rfl | rfl <;> decide
    omega

theorem followsAll_unknown_boundary :
    ∃ change, Bootstrap.change .yjs (50 + ·) oneKey (.historySince 9) =
        .ok change ∧
      FollowsAll .yjs oneKey (new.merge change)
        [.add 2 11 101, .addEpochKey 3 12 102] := by
  refine ⟨oneKey.history .yjs, rfl, ?_⟩
  rw [followsAll_iff_fullHistory .yjs oneKey_wellFormed (.historySince 9)
    oneKey_numbersUnique rfl]
  have hfull : ∀ entry ∈ oneKey.doc.contents, entry.1 ≠ 9 := by decide
  exact Or.inl hfull

/-- A joiner that was given the current key only misses the next one. -/
theorem joiner_misses_later_keys :
    ¬ ∀ (flavour : Flavour) (member : Keychain ℕ ℕ), member.WellFormed →
      ∀ (b : Bootstrap ℕ) (opIds : ℕ → ℕ) (additions : List (Addition ℕ ℕ)),
        NumbersUnique member opIds additions →
        ∀ change, b.change flavour opIds member = .ok change →
          FollowsAll flavour member (new.merge change) additions := by
  intro h
  have hfollows := h .yjs oneKey oneKey_wellFormed .currentKeyChange _ _
    oneKey_numbersUnique _ rfl
  exact absurd hfollows.1.1 (by decide)

end Collabswarm.Keychain
