import Mathlib.Tactic

/-!
# Causal delivery

Every operation has a unique number and names the operations it depends on.  A
replica applies an operation when everything it depends on has been applied and
keeps it pending until then.
-/

namespace Collabswarm

variable {N β : Type*}

/-- An operation: its number, what it depends on, and what it does. -/
structure CausalOp (N β : Type*) where
  id : N
  deps : List N
  body : β
deriving DecidableEq

/-- A replica: the applied operations in the order of application, and the
pending ones. -/
structure CausalLog (N β : Type*) where
  log : List (CausalOp N β)
  pending : List (CausalOp N β)
deriving DecidableEq

namespace CausalLog

/-- The replica without operations. -/
def empty : CausalLog N β := ⟨[], []⟩

/-- The numbers of the applied operations. -/
def ids (d : CausalLog N β) : List N := d.log.map CausalOp.id

/-- Apply an operation of our own. -/
def push (d : CausalLog N β) (op : CausalOp N β) : CausalLog N β :=
  { d with log := d.log ++ [op] }

/-- All operations that were received or made. -/
def all (d : CausalLog N β) : List (CausalOp N β) := d.log ++ d.pending

variable [DecidableEq N]

/-- An operation all of whose dependencies are applied. -/
def ready (d : CausalLog N β) (op : CausalOp N β) : Bool :=
  op.deps.all (· ∈ d.ids)

/-- An operation that was received before, applied or not. -/
def knows (d : CausalLog N β) (op : CausalOp N β) : Bool :=
  decide (op.id ∈ d.ids) || decide (op.id ∈ d.pending.map CausalOp.id)

/-- Keep an operation that is new. -/
def enqueue (d : CausalLog N β) (op : CausalOp N β) : CausalLog N β :=
  if d.knows op then d else { d with pending := d.pending ++ [op] }

variable [DecidableEq β]

/-- Apply pending operations while one is ready. -/
def drainLoop : ℕ → CausalLog N β → CausalLog N β
  | 0, d => d
  | fuel + 1, d =>
      match d.pending.find? d.ready with
      | none => d
      | some op => drainLoop fuel ⟨d.log ++ [op], d.pending.erase op⟩

/-- Apply pending operations until none is ready. -/
def drain (d : CausalLog N β) : CausalLog N β := drainLoop d.pending.length d

/-- Receive operations. -/
def receive (d : CausalLog N β) (ops : List (CausalOp N β)) :
    CausalLog N β :=
  (ops.foldl enqueue d).drain

/-! ## Well-formed replicas -/

omit [DecidableEq β]

/-- Every operation of the list depends on earlier ones only. -/
def Causal : List N → List (CausalOp N β) → Prop
  | _, [] => True
  | applied, op :: ops => op.deps ⊆ applied ∧ Causal (op.id :: applied) ops

/-- Numbers are unique, dependencies were applied first, and no pending
operation is ready. -/
structure WellFormed (d : CausalLog N β) : Prop where
  nodup : (d.all.map CausalOp.id).Nodup
  causal : Causal [] d.log
  stuck : ∀ op ∈ d.pending, d.ready op = false

omit [DecidableEq N] in
theorem causal_append_singleton {op : CausalOp N β} :
    ∀ {l : List (CausalOp N β)} {applied : List N},
      Causal applied (l ++ [op]) ↔ Causal applied l ∧
        ∀ x ∈ op.deps, x ∈ applied ∨ x ∈ l.map CausalOp.id := by
  intro l
  induction l with
  | nil =>
      intro applied
      simp [Causal, List.subset_def]
  | cons op' l ih =>
      intro applied
      simp only [List.cons_append, Causal, ih, List.mem_cons, List.map_cons,
        and_assoc]
      constructor
      · rintro ⟨hdeps, hrest, hall⟩
        refine ⟨hdeps, hrest, fun x hx => ?_⟩
        rcases hall x hx with (rfl | hx) | hx
        · exact Or.inr (Or.inl rfl)
        · exact Or.inl hx
        · exact Or.inr (Or.inr hx)
      · rintro ⟨hdeps, hrest, hall⟩
        refine ⟨hdeps, hrest, fun x hx => ?_⟩
        rcases hall x hx with hx | rfl | hx
        · exact Or.inl (Or.inr hx)
        · exact Or.inl (Or.inl rfl)
        · exact Or.inr hx

omit [DecidableEq N] in
theorem causal_of_append {l' : List (CausalOp N β)} :
    ∀ {l : List (CausalOp N β)} {applied : List N},
      Causal applied (l ++ l') → Causal applied l := by
  intro l
  induction l with
  | nil =>
      intro applied _
      trivial
  | cons op l ih =>
      intro applied h
      exact ⟨h.1, ih h.2⟩

theorem ready_iff {d : CausalLog N β} {op : CausalOp N β} :
    d.ready op = true ↔ ∀ x ∈ op.deps, x ∈ d.ids := by
  simp [ready]

theorem WellFormed.nodup_log {d : CausalLog N β} (h : d.WellFormed) :
    (d.log.map CausalOp.id).Nodup := by
  have hall := h.nodup
  rw [all, List.map_append] at hall
  exact (List.nodup_append.1 hall).1

/-! ## Receiving -/

theorem mem_all_enqueue {d : CausalLog N β} {op op' : CausalOp N β}
    (h : op' ∈ (d.enqueue op).all) : op' ∈ d.all ∨ op' = op := by
  rw [enqueue] at h
  split at h
  · exact Or.inl h
  · simp only [all, List.mem_append, List.mem_singleton] at h ⊢
    tauto

theorem knows_iff {d : CausalLog N β} {op : CausalOp N β} :
    d.knows op = true ↔ op.id ∈ d.all.map CausalOp.id := by
  simp [knows, all, ids]

theorem log_enqueue (d : CausalLog N β) (op : CausalOp N β) :
    (d.enqueue op).log = d.log := by
  rw [enqueue]
  split <;> rfl

theorem nodup_enqueue {d : CausalLog N β} (op : CausalOp N β)
    (h : (d.all.map CausalOp.id).Nodup) :
    ((d.enqueue op).all.map CausalOp.id).Nodup := by
  rw [enqueue]
  split
  · exact h
  · rename_i hknows
    rw [knows_iff] at hknows
    have hall : ({ d with pending := d.pending ++ [op] } : CausalLog N β).all =
        d.all ++ [op] := by
      simp [all]
    rw [hall, List.map_append, List.nodup_append]
    refine ⟨h, by simp, ?_⟩
    rintro x hx y hy rfl
    simp only [List.map_cons, List.map_nil, List.mem_singleton] at hy
    exact hknows (hy ▸ hx)

theorem known_enqueue {d : CausalLog N β} (op : CausalOp N β) :
    op.id ∈ (d.enqueue op).all.map CausalOp.id ∧
      d.all ⊆ (d.enqueue op).all := by
  rw [enqueue]
  split
  · rename_i hknows
    exact ⟨knows_iff.1 hknows, List.Subset.refl _⟩
  · constructor
    · simp [all]
    · intro op' hop'
      simp only [all, List.mem_append] at hop' ⊢
      tauto

/-- What queueing a message does. -/
theorem foldl_enqueue_spec :
    ∀ (ops : List (CausalOp N β)) (d : CausalLog N β),
      (ops.foldl enqueue d).log = d.log ∧
      (∀ op ∈ (ops.foldl enqueue d).all, op ∈ d.all ∨ op ∈ ops) ∧
      ((d.all.map CausalOp.id).Nodup →
        ((ops.foldl enqueue d).all.map CausalOp.id).Nodup) ∧
      d.all ⊆ (ops.foldl enqueue d).all ∧
      ∀ op ∈ ops, op.id ∈ (ops.foldl enqueue d).all.map CausalOp.id := by
  intro ops
  induction ops with
  | nil =>
      intro d
      simp
  | cons op ops ih =>
      intro d
      obtain ⟨hlog, hall, hnodup, hsub, hknown⟩ := ih (d.enqueue op)
      have hself := known_enqueue (d := d) op
      refine ⟨hlog.trans (log_enqueue d op), ?_, ?_, ?_, ?_⟩
      · intro op' hop'
        rcases hall op' hop' with h | h
        · rcases mem_all_enqueue h with h | rfl
          · exact Or.inl h
          · exact Or.inr (by simp)
        · exact Or.inr (by simp [h])
      · exact fun h => hnodup (nodup_enqueue op h)
      · exact fun x hx => hsub (hself.2 hx)
      · intro op' hop'
        rcases List.mem_cons.1 hop' with rfl | hop'
        · exact List.map_subset _ hsub hself.1
        · exact hknown op' hop'

variable [DecidableEq β]

/-- Draining moves operations from the pending ones to the end of the log and
keeps the log causal. -/
theorem drainLoop_spec :
    ∀ (fuel : ℕ) (d : CausalLog N β),
      (∃ applied, (drainLoop fuel d).log = d.log ++ applied ∧
        (applied ++ (drainLoop fuel d).pending).Perm d.pending) ∧
      (Causal [] d.log → Causal [] (drainLoop fuel d).log) ∧
      (d.pending.length ≤ fuel →
        ∀ op ∈ (drainLoop fuel d).pending,
          (drainLoop fuel d).ready op = false) := by
  intro fuel
  induction fuel with
  | zero =>
      intro d
      refine ⟨⟨[], by simp [drainLoop]⟩, id, ?_⟩
      intro hlen op hop
      rw [drainLoop, List.length_eq_zero_iff.1 (Nat.le_zero.1 hlen)] at hop
      cases hop
  | succ fuel ih =>
      intro d
      rw [drainLoop]
      rcases hfind : d.pending.find? d.ready with _ | op
      · refine ⟨⟨[], by simp⟩, id, ?_⟩
        intro _ op hop
        simpa using List.find?_eq_none.1 hfind op hop
      · have hmem : op ∈ d.pending := List.mem_of_find?_eq_some hfind
        have hready : d.ready op = true := List.find?_some hfind
        obtain ⟨⟨applied, hlog, hperm⟩, hcausal, hstuck⟩ :=
          ih ⟨d.log ++ [op], d.pending.erase op⟩
        refine ⟨⟨op :: applied, ?_, ?_⟩, ?_, ?_⟩
        · rw [hlog]
          simp
        · exact (hperm.cons op).trans (List.perm_cons_erase hmem).symm
        · intro h
          apply hcausal
          rw [causal_append_singleton]
          exact ⟨h, fun x hx => Or.inr (ready_iff.1 hready x hx)⟩
        · intro hlen
          apply hstuck
          rw [List.length_erase_of_mem hmem]
          omega

/-- What receiving a message does. -/
theorem receive_spec (d : CausalLog N β) (ops : List (CausalOp N β)) :
    (∃ applied, (d.receive ops).log = d.log ++ applied) ∧
      (∀ op ∈ (d.receive ops).all, op ∈ d.all ∨ op ∈ ops) ∧
      d.all ⊆ (d.receive ops).all ∧
      (∀ op ∈ ops, op.id ∈ (d.receive ops).all.map CausalOp.id) ∧
      (d.WellFormed → (d.receive ops).WellFormed) := by
  obtain ⟨hlog, hall, hnodup, hsub, hknown⟩ := foldl_enqueue_spec ops d
  set queued := ops.foldl enqueue d
  obtain ⟨⟨applied, hdrained, hperm⟩, hcausal, hstuck⟩ :=
    drainLoop_spec queued.pending.length queued
  have hreceive : d.receive ops =
      drainLoop queued.pending.length queued := rfl
  have hallPerm : (d.receive ops).all.Perm queued.all := by
    rw [hreceive, all, all, hdrained, List.append_assoc]
    exact hperm.append_left _
  have hids := (hallPerm.map CausalOp.id)
  refine ⟨⟨applied, by rw [hreceive, hdrained, hlog]⟩, ?_, ?_, ?_, ?_⟩
  · intro op hop
    exact hall op (hallPerm.mem_iff.1 hop)
  · exact fun op hop => hallPerm.mem_iff.2 (hsub hop)
  · exact fun op hop => hids.mem_iff.2 (hknown op hop)
  · intro h
    refine ⟨(hids.nodup_iff).2 (hnodup h.nodup), ?_, ?_⟩
    · rw [hreceive]
      apply hcausal
      rw [hlog]
      exact h.causal
    · rw [hreceive]
      exact hstuck le_rfl

/-- Where every new operation of the message and every pending one misses an
operation it depends on, nothing is applied. -/
theorem WellFormed.receive_log {d : CausalLog N β} (h : d.WellFormed)
    {ops : List (CausalOp N β)}
    (hmissing : ∀ op, op ∈ d.pending ∨ op ∈ ops → op ∉ d.log →
      ∃ x ∈ op.deps, x ∉ d.ids) :
    (d.receive ops).log = d.log := by
  obtain ⟨⟨applied, hlog⟩, hall, -, -, hwf⟩ := d.receive_spec ops
  cases applied with
  | nil => rw [hlog, List.append_nil]
  | cons op applied =>
      have hnew : op ∉ d.log := by
        intro hop
        have hnodup := (hwf h).nodup_log.of_map
        rw [hlog, List.nodup_append] at hnodup
        exact hnodup.2.2 op hop op (by simp) rfl
      have hop : op ∈ d.pending ∨ op ∈ ops := by
        have hmem : op ∈ (d.receive ops).all := by
          simp [all, hlog]
        rcases hall op hmem with hold | hold
        · rcases List.mem_append.1 hold with hold | hold
          · exact absurd hold hnew
          · exact Or.inl hold
        · exact Or.inr hold
      obtain ⟨x, hx, hmiss⟩ := hmissing op hop hnew
      have hcausal := (hwf h).causal
      rw [hlog, List.append_cons] at hcausal
      have hdeps := (causal_append_singleton.1
        (causal_of_append hcausal)).2 x hx
      simp only [List.not_mem_nil, false_or] at hdeps
      exact absurd hdeps hmiss

/-- Receiving operations that are known changes nothing. -/
theorem WellFormed.receive_known {d : CausalLog N β} (h : d.WellFormed)
    {ops : List (CausalOp N β)}
    (hknown : ∀ op ∈ ops, op.id ∈ d.all.map CausalOp.id) :
    d.receive ops = d := by
  have hqueued : ops.foldl enqueue d = d := by
    induction ops with
    | nil => rfl
    | cons op ops ih =>
        have hop : d.enqueue op = d := by
          rw [enqueue, if_pos (knows_iff.2 (hknown op (by simp)))]
        rw [List.foldl_cons, hop]
        exact ih fun op' hop' => hknown op' (by simp [hop'])
  rw [receive, hqueued, drain]
  cases hlength : d.pending.length with
  | zero => rfl
  | succ fuel =>
      have hfind : d.pending.find? d.ready = none :=
        List.find?_eq_none.2 fun op hop => by simp [h.stuck op hop]
      rw [drainLoop, hfind]

/-- With nothing pending a new operation that is ready is applied at once. -/
theorem receive_ready {d : CausalLog N β} {op : CausalOp N β}
    (hpending : d.pending = []) (hready : d.ready op = true)
    (hnew : op.id ∉ d.ids) : d.receive [op] = d.push op := by
  obtain ⟨log, pending⟩ := d
  obtain rfl : pending = [] := hpending
  have hknows : (⟨log, []⟩ : CausalLog N β).knows op = false := by
    simpa [knows] using hnew
  have hfind : [op].find? (⟨log, [op]⟩ : CausalLog N β).ready = some op := by
    rw [List.find?_cons_of_pos]
    exact hready
  rw [receive, List.foldl_cons, List.foldl_nil, enqueue, hknows]
  simp [drain, drainLoop, hfind, push]

/-! ## Replicas with the same operations -/

omit [DecidableEq β]

omit [DecidableEq N] in
theorem deps_subset_of_causal :
    ∀ {l : List (CausalOp N β)} {applied : List N}, Causal applied l →
      ∀ op ∈ l, ∀ x ∈ op.deps, x ∈ applied ∨ x ∈ l.map CausalOp.id := by
  intro l
  induction l with
  | nil =>
      intro applied _ op hop
      cases hop
  | cons op l ih =>
      intro applied h op' hop' x hx
      rcases List.mem_cons.1 hop' with rfl | hop'
      · exact Or.inl (h.1 hx)
      · rcases ih h.2 op' hop' x hx with hx | hx
        · rcases List.mem_cons.1 hx with rfl | hx
          · exact Or.inr (by simp)
          · exact Or.inl hx
        · exact Or.inr (List.mem_cons_of_mem _ hx)

/-- Applied operations depend on applied operations. -/
theorem WellFormed.deps_subset {d : CausalLog N β} (h : d.WellFormed)
    {op : CausalOp N β} (hop : op ∈ d.log) : op.deps ⊆ d.ids := by
  intro x hx
  rcases deps_subset_of_causal h.causal op hop x hx with hmem | hmem
  · cases hmem
  · exact hmem

/-- An operation of a well-formed replica is determined by its number. -/
theorem WellFormed.eq_of_id_eq {d : CausalLog N β} (h : d.WellFormed)
    {op op' : CausalOp N β} (hop : op ∈ d.all) (hop' : op' ∈ d.all)
    (heq : op.id = op'.id) : op = op' :=
  List.inj_on_of_nodup_map h.nodup hop hop' heq

/-- In a replica where nothing ready is pending, a causal list of known
operations is applied. -/
theorem WellFormed.mem_log_of_causal {d : CausalLog N β} (h : d.WellFormed) :
    ∀ (l : List (CausalOp N β)) (applied : List N), Causal applied l →
      (∀ x ∈ applied, x ∈ d.ids) → (∀ op ∈ l, op ∈ d.all) →
      ∀ op ∈ l, op ∈ d.log := by
  intro l
  induction l with
  | nil =>
      intro applied _ _ _ op hop
      cases hop
  | cons op l ih =>
      intro applied hcausal happlied hknown
      have hready : d.ready op = true :=
        ready_iff.2 fun x hx => happlied x (hcausal.1 hx)
      have hlog : op ∈ d.log := by
        rcases List.mem_append.1 (hknown op (by simp)) with hlog | hpending
        · exact hlog
        · rw [h.stuck op hpending] at hready
          cases hready
      have happlied' : ∀ x ∈ op.id :: applied, x ∈ d.ids := by
        intro x hx
        rcases List.mem_cons.1 hx with rfl | hx
        · exact List.mem_map_of_mem hlog
        · exact happlied x hx
      intro op' hop'
      rcases List.mem_cons.1 hop' with rfl | hop'
      · exact hlog
      · exact ih _ hcausal.2 happlied' (fun z hz => hknown z (by simp [hz]))
          op' hop'

/-- A replica that knows what another applied, and nothing the other does not
know, has applied the same operations. -/
theorem WellFormed.log_perm {d d' : CausalLog N β} (h : d.WellFormed)
    (h' : d'.WellFormed) (hsub : ∀ op ∈ d.log, op ∈ d'.all)
    (hsub' : ∀ op ∈ d'.log, op ∈ d.all) : d'.log.Perm d.log := by
  have hnodup : d.log.Nodup := h.nodup_log.of_map
  have hnodup' : d'.log.Nodup := h'.nodup_log.of_map
  rw [List.perm_ext_iff_of_nodup hnodup' hnodup]
  intro op
  constructor
  · exact h.mem_log_of_causal d'.log [] h'.causal (by simp) hsub' op
  · exact h'.mem_log_of_causal d.log [] h.causal (by simp) hsub op

/-- Our own insertion keeps a replica well formed, when its number is new to
the operations and to what they depend on. -/
theorem WellFormed.push {d : CausalLog N β} (h : d.WellFormed) {op : CausalOp N β}
    (hid : op.id ∉ d.all.map CausalOp.id) (hdeps : op.deps ⊆ d.ids)
    (hnew : ∀ op' ∈ d.pending, op.id ∉ op'.deps) :
    (d.push op).WellFormed where
  nodup := by
    have hperm : (d.push op).all.Perm (op :: d.all) := by
      rw [all, all, CausalLog.push, List.append_assoc]
      exact List.perm_middle
    rw [(hperm.map CausalOp.id).nodup_iff, List.map_cons, List.nodup_cons]
    exact ⟨hid, h.nodup⟩
  causal := by
    rw [CausalLog.push, causal_append_singleton]
    exact ⟨h.causal, fun x hx => Or.inr (hdeps hx)⟩
  stuck := by
    intro op' hop'
    have hstuck := h.stuck op' hop'
    rw [← Bool.not_eq_true, ready_iff] at hstuck ⊢
    intro hall
    apply hstuck
    intro x hx
    have hmem := hall x hx
    simp only [ids, CausalLog.push, List.map_append, List.mem_append,
      List.map_cons, List.map_nil, List.mem_singleton] at hmem
    rcases hmem with hmem | rfl
    · exact hmem
    · exact absurd hx (hnew op' hop')

theorem empty_wellFormed : (empty : CausalLog N β).WellFormed :=
  ⟨List.nodup_nil, trivial, by simp [empty]⟩

end CausalLog

end Collabswarm
