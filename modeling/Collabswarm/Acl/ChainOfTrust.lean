import Mathlib.Data.List.ReduceOption
import Collabswarm.Acl.ACLChain
import Collabswarm.Support.Lists

/-!
# What a chain of trust guarantees

Every entry of a chain passed all checks against the chain as it was before the
entry, whatever calls are issued while others run.  The encoding of an entry
can be read back, so the hash of the last entry determines all entries.
-/

namespace Collabswarm

namespace ACLChainConfig

open Bytes

variable {Δ P S : Type} (cfg : ACLChainConfig Δ P S)

/-! ## Accepted entries -/

/-- The state after folding changes from the empty state on. -/
def foldState (entries : List (ACLEntry Δ)) : Except String S := do
  let empty ← cfg.emptyState
  entries.foldlM (fun state entry => cfg.applyChange state entry.change) empty

/-- The hash of an entry's canonical payload. -/
def HasHash (entry : ACLEntry Δ) (hash : Bytes) : Prop :=
  ∃ payload, cfg.encodeEntry entry = .ok payload ∧
    cfg.digest payload = .ok hash

/-- The signature of an entry verifies under this key, which is the declared
one. -/
def SignedBy (entry : ACLEntry Δ) (key : P) : Prop :=
  cfg.serializeKey key = .ok entry.signerKeyId ∧
    ∃ payload, cfg.encodeEntry entry = .ok payload ∧
      cfg.verify payload key entry.signature = .ok true

/-- What a chain is after an entry was accepted. -/
structure Accepted (chain : ACLChain Δ S) (raw : Option (RawEntry Δ))
    (key : P) (entry : ACLEntry Δ) (after : ACLChain Δ S) : Prop where
  shape : validateEntryShape raw = .ok entry
  signed : cfg.SignedBy entry key
  sequenceNumber : entry.sequenceNumber = chain.entries.length
  parentHash : entry.parentHash = chain.headHash
  authorized : ∃ prior newState hash,
    chain.state.elim cfg.emptyState .ok = .ok prior ∧
      cfg.isAuthorized chain.entries.isEmpty prior key = .ok true ∧
      cfg.applyChange prior entry.change = .ok newState ∧
      cfg.HasHash entry hash ∧
      after = chain.push newState entry hash

theorem checkLinks_ok {index : ℕ} {entry : ACLEntry Δ} {actual : Bytes}
    {headHash : Option Bytes}
    (h : checkLinks index entry actual headHash = .ok ()) :
    entry.signerKeyId = actual ∧ entry.sequenceNumber = index ∧
      entry.parentHash = headHash := by
  unfold checkLinks at h
  split at h
  · cases h
  rename_i hkey
  split at h
  · cases h
  rename_i hsequence
  refine ⟨not_not.1 hkey, not_not.1 hsequence, ?_⟩
  split at h
  · assumption
  · cases h
  · cases h
  · rename_i head parentHash hparent
    split at h
    · rename_i heq
      rw [hparent, heq]
    · cases h

theorem checkLinks_error {index : ℕ} {entry : ACLEntry Δ} {actual : Bytes}
    {headHash : Option Bytes} {r : Rejection}
    (h : checkLinks index entry actual headHash = .error r) :
    r.index = index := by
  unfold checkLinks at h
  split at h
  · exact congrArg Rejection.index (Except.error.inj h).symm
  split at h
  · exact congrArg Rejection.index (Except.error.inj h).symm
  split at h
  · cases h
  · exact congrArg Rejection.index (Except.error.inj h).symm
  · exact congrArg Rejection.index (Except.error.inj h).symm
  · split at h
    · cases h
    · exact congrArg Rejection.index (Except.error.inj h).symm

/-- Ingesting an entry leaves the chain alone at every await; it ends with the
chain unchanged and a rejection of the next entry, or with an accepted
entry. -/
theorem ingestEntryInternal_keeps {inv : ACLChain Δ S → Prop}
    {post : Except Rejection Unit → ACLChain Δ S → Prop}
    {chain : ACLChain Δ S} {raw : Option (RawEntry Δ)} {key : P}
    (hinv : inv chain)
    (hrejected : ∀ r, r.index = chain.entries.length → post (.error r) chain)
    (haccepted : ∀ entry after, cfg.Accepted chain raw key entry after →
      post (.ok ()) after) :
    (cfg.ingestEntryInternal raw key).Keeps inv post chain := by
  simp only [ingestEntryInternal, Async.keeps_bind, Async.keeps_read]
  rcases hshape : validateEntryShape raw with message | entry
  · exact hrejected _ rfl
  simp only [Async.keeps_bind, Async.keeps_awaiting]
  refine ⟨hinv, ?_⟩
  rcases hkey : cfg.serializeKey key with message | actual
  · exact hrejected _ rfl
  simp only [Async.keeps_bind, Async.keeps_read]
  rcases hlinks : checkLinks chain.entries.length entry actual
    chain.headHash with rejection | ⟨⟩
  · exact hrejected _ (checkLinks_error hlinks)
  dsimp only
  rcases hencode : cfg.encodeEntry entry with message | payload
  · exact hrejected _ rfl
  simp only [Async.keeps_bind, Async.keeps_awaiting]
  refine ⟨hinv, ?_⟩
  rcases hdigest : cfg.digest payload with message | entryHash
  · exact hrejected _ rfl
  simp only [Async.keeps_bind, Async.keeps_awaiting]
  refine ⟨hinv, ?_⟩
  rcases hverify : cfg.verify payload key entry.signature with
    message | _ | _
  · exact hrejected _ rfl
  · exact hrejected _ rfl
  simp only [Async.keeps_bind, Async.keeps_read]
  rcases hprior : chain.state.elim cfg.emptyState .ok with message | prior
  · exact hrejected _ rfl
  simp only [Async.keeps_bind, Async.keeps_awaiting]
  refine ⟨hinv, ?_⟩
  rcases hauthorized : cfg.isAuthorized chain.entries.isEmpty prior key with
    message | _ | _
  · exact hrejected _ rfl
  · exact hrejected _ rfl
  simp only [Async.keeps_bind, Async.keeps_awaiting]
  refine ⟨hinv, ?_⟩
  rcases happly : cfg.applyChange prior entry.change with message | newState
  · exact hrejected _ rfl
  simp only [Async.keeps_bind, Async.keeps_write]
  obtain ⟨hid, hsequence, hparent⟩ := checkLinks_ok hlinks
  exact haccepted entry _ {
    shape := hshape
    signed := ⟨hid ▸ hkey, payload, hencode, hverify⟩
    sequenceNumber := hsequence
    parentHash := hparent
    authorized := ⟨prior, newState, entryHash, hprior, hauthorized, happly,
      ⟨payload, hencode, hdigest⟩, rfl⟩ }

/-! ## The invariant -/

/-- Who may author entry `i` of a chain: a bootstrap key, or a writer in the
state after the entries before it. -/
def MayAuthor (entries : List (ACLEntry Δ)) (i : ℕ) (key : P) : Prop :=
  if i = 0 then
    ∃ allowed ∈ cfg.genesisAuthorizedKeys, ∃ keyId,
      cfg.serializeKey allowed = .ok keyId ∧ cfg.serializeKey key = .ok keyId
  else
    ∃ state, cfg.foldState (entries.take i) = .ok state ∧
      cfg.isWriter state key = .ok true

/-- A chain all of whose entries are numbered, linked, signed and authorized,
with the hashes and the state that belong to them. -/
structure Trusted (chain : ACLChain Δ S) : Prop where
  hashes : chain.entryHashes.length = chain.entries.length
  hash : ∀ (i : ℕ) entry, chain.entries[i]? = some entry →
    ∃ hash, chain.entryHashes[i]? = some hash ∧ cfg.HasHash entry hash
  sequence : ∀ (i : ℕ) entry, chain.entries[i]? = some entry →
    entry.sequenceNumber = i
  genesis : ∀ entry, chain.entries[0]? = some entry → entry.parentHash = none
  parent : ∀ (i : ℕ) prev entry, chain.entries[i]? = some prev →
    chain.entries[i + 1]? = some entry →
    ∃ hash, cfg.HasHash prev hash ∧ entry.parentHash = some hash
  signer : ∀ (i : ℕ) entry, chain.entries[i]? = some entry →
    ∃ key, cfg.SignedBy entry key ∧ cfg.MayAuthor chain.entries i key
  state : (chain.entries = [] ∧ chain.state = none) ∨
    chain.entries ≠ [] ∧ ∃ state, chain.state = some state ∧
      cfg.foldState chain.entries = .ok state

theorem new_trusted : cfg.Trusted (ACLChain.new : ACLChain Δ S) where
  hashes := rfl
  hash := by simp [ACLChain.new]
  sequence := by simp [ACLChain.new]
  genesis := by simp [ACLChain.new]
  parent := by simp [ACLChain.new]
  signer := by simp [ACLChain.new]
  state := Or.inl ⟨rfl, rfl⟩

theorem foldState_concat (entries : List (ACLEntry Δ)) (entry : ACLEntry Δ) :
    cfg.foldState (entries ++ [entry]) =
      cfg.foldState entries >>= fun state =>
        cfg.applyChange state entry.change := by
  simp only [foldState, List.foldlM_append, List.foldlM_cons,
    List.foldlM_nil, bind_pure, bind_assoc]

/-- The state before the next entry is the fold of the chain. -/
theorem Trusted.prior {chain : ACLChain Δ S} (h : cfg.Trusted chain) :
    chain.state.elim cfg.emptyState .ok = cfg.foldState chain.entries := by
  rcases h.state with ⟨hnil, hnone⟩ | ⟨-, state, hsome, hfold⟩
  · rw [hnone, hnil, foldState]
    simp only [Option.elim_none, List.foldlM_nil, bind, Except.bind]
    rcases cfg.emptyState with message | empty
    · rfl
    · rfl
  · rw [hsome, hfold]
    rfl

theorem bootstrapLoop_ok {candidateBytes : Bytes} :
    ∀ {keys : List P}, cfg.bootstrapLoop candidateBytes keys = .ok true →
      ∃ allowed ∈ keys, cfg.serializeKey allowed = .ok candidateBytes := by
  intro keys
  induction keys with
  | nil =>
      intro h
      cases h
  | cons allowed keys ih =>
      intro h
      rw [bootstrapLoop] at h
      rcases hkey : cfg.serializeKey allowed with message | allowedBytes
      · rw [hkey] at h
        cases h
      · rw [hkey] at h
        simp only [bind, Except.bind] at h
        split at h
        · rename_i heq
          exact ⟨allowed, by simp, heq ▸ hkey⟩
        · obtain ⟨allowed', hmem, heq⟩ := ih h
          exact ⟨allowed', by simp [hmem], heq⟩

/-- Whoever passes the authorization check may author the next entry. -/
theorem Trusted.mayAuthor {chain : ACLChain Δ S} (h : cfg.Trusted chain)
    {prior : S} {key : P}
    (hprior : chain.state.elim cfg.emptyState .ok = .ok prior)
    (hauthorized : cfg.isAuthorized chain.entries.isEmpty prior key =
      .ok true) :
    cfg.MayAuthor chain.entries chain.entries.length key := by
  rw [isAuthorized] at hauthorized
  rw [MayAuthor]
  by_cases hnil : chain.entries = []
  · rw [if_pos (by simp [hnil])]
    rw [if_pos (by simp [hnil]), isInBootstrapSet] at hauthorized
    rcases hkey : cfg.serializeKey key with message | keyId
    · rw [hkey] at hauthorized
      cases hauthorized
    · rw [hkey] at hauthorized
      obtain ⟨allowed, hmem, heq⟩ := cfg.bootstrapLoop_ok hauthorized
      exact ⟨allowed, hmem, keyId, heq, rfl⟩
  · rw [if_neg (by simpa using hnil)]
    rw [if_neg (by simpa using hnil)] at hauthorized
    refine ⟨prior, ?_, hauthorized⟩
    rw [List.take_length, ← h.prior, hprior]

theorem MayAuthor.concat {entries : List (ACLEntry Δ)} {i : ℕ} {key : P}
    (hi : i ≤ entries.length) (h : cfg.MayAuthor entries i key)
    (entry : ACLEntry Δ) : cfg.MayAuthor (entries ++ [entry]) i key := by
  rw [MayAuthor] at h ⊢
  rwa [List.take_append_of_le_length hi]

/-- An accepted entry keeps the chain trusted. -/
theorem Trusted.accepted {chain after : ACLChain Δ S}
    (h : cfg.Trusted chain) {raw : Option (RawEntry Δ)} {key : P}
    {entry : ACLEntry Δ} (ha : cfg.Accepted chain raw key entry after) :
    cfg.Trusted after := by
  obtain ⟨prior, newState, entryHash, hprior, hauthorized, happly, hhash,
    rfl⟩ := ha.authorized
  have hmay := h.mayAuthor cfg hprior hauthorized
  refine ⟨?_, ?_, ?_, ?_, ?_, ?_, ?_⟩
  · simp [ACLChain.push, h.hashes]
  · intro i e he
    rcases getElem?_concat he with ⟨hlt, hold⟩ | ⟨rfl, rfl⟩
    · obtain ⟨hash, hget, hhas⟩ := h.hash i e hold
      refine ⟨hash, ?_, hhas⟩
      rw [ACLChain.push, List.getElem?_append_left (by rw [h.hashes]; exact hlt)]
      exact hget
    · refine ⟨entryHash, ?_, hhash⟩
      simp [ACLChain.push, ← h.hashes]
  · intro i e he
    rcases getElem?_concat he with ⟨-, hold⟩ | ⟨rfl, rfl⟩
    · exact h.sequence i e hold
    · exact ha.sequenceNumber
  · intro e he
    rcases getElem?_concat he with ⟨-, hold⟩ | ⟨hlength, rfl⟩
    · exact h.genesis e hold
    · have hnil : chain.entryHashes = [] :=
        List.length_eq_zero_iff.1 (by rw [h.hashes, ← hlength])
      rw [ha.parentHash, ACLChain.headHash, hnil]
      rfl
  · intro i prev e hprev he
    rcases getElem?_concat he with ⟨hlt, hold⟩ | ⟨hlength, rfl⟩
    · rcases getElem?_concat hprev with ⟨-, hprev⟩ | ⟨hi, -⟩
      · exact h.parent i prev e hprev hold
      · omega
    · rcases getElem?_concat hprev with ⟨-, hprev⟩ | ⟨hi, -⟩
      · obtain ⟨hash, hget, hhas⟩ := h.hash i prev hprev
        refine ⟨hash, hhas, ?_⟩
        rw [ha.parentHash, ACLChain.headHash, List.getLast?_eq_getElem?,
          h.hashes, ← hlength, Nat.add_sub_cancel]
        exact hget
      · omega
  · intro i e he
    rcases getElem?_concat he with ⟨hlt, hold⟩ | ⟨rfl, rfl⟩
    · obtain ⟨key', hsigned, hauthor⟩ := h.signer i e hold
      exact ⟨key', hsigned, MayAuthor.concat cfg hlt.le hauthor entry⟩
    · exact ⟨key, ha.signed, MayAuthor.concat cfg le_rfl hmay e⟩
  · refine Or.inr ⟨by simp [ACLChain.push], newState, rfl, ?_⟩
    rw [ACLChain.push, foldState_concat, ← h.prior, hprior]
    exact happly

/-! ## What a call does -/

/-- Alone, ingesting an entry rejects it and changes nothing, or accepts it. -/
theorem ingestEntryInternal_cases (raw : Option (RawEntry Δ)) (key : P)
    (chain : ACLChain Δ S) :
    (∃ r, r.index = chain.entries.length ∧
        (cfg.ingestEntryInternal raw key).runAlone chain = (chain, .error r)) ∨
      ∃ entry after, cfg.Accepted chain raw key entry after ∧
        (cfg.ingestEntryInternal raw key).runAlone chain = (after, .ok ()) := by
  have hkeeps : (cfg.ingestEntryInternal raw key).Keeps (fun _ => True)
      (fun result after => (∃ r, r.index = chain.entries.length ∧
          result = .error r ∧ after = chain) ∨
        result = .ok () ∧ ∃ entry, cfg.Accepted chain raw key entry after)
      chain := by
    apply cfg.ingestEntryInternal_keeps trivial
    · intro r hindex
      exact Or.inl ⟨r, hindex, rfl, rfl⟩
    · intro entry after haccepted
      exact Or.inr ⟨rfl, entry, haccepted⟩
  rcases hkeeps.runAlone with ⟨r, hindex, hresult, hafter⟩ |
    ⟨hresult, entry, ha⟩
  · exact Or.inl ⟨r, hindex, Prod.ext hafter hresult⟩
  · exact Or.inr ⟨entry, _, ha, Prod.ext rfl hresult⟩

/-- A replay that succeeds appends exactly its input. -/
theorem replayLoop_accepted (resolveKey : Bytes → Except String (Option P)) :
    ∀ (raws : List (Option (RawEntry Δ))) (i : ℕ) (chain after : ACLChain Δ S),
      (cfg.replayLoop resolveKey i raws).runAlone chain = (after, .ok ()) →
      ∃ entries, after.entries = chain.entries ++ entries ∧
        List.Forall₂ (fun raw entry => validateEntryShape raw = .ok entry)
          raws entries := by
  intro raws
  induction raws with
  | nil =>
      intro i chain after h
      obtain ⟨rfl, -⟩ := Prod.mk.inj h
      exact ⟨[], by simp, .nil⟩
  | cons raw raws ih =>
      intro i chain after h
      rw [replayLoop] at h
      rcases hshape : validateEntryShape raw with message | entry
      · rw [hshape] at h
        cases h
      simp only [hshape, Async.runAlone_bind, Async.runAlone_awaiting] at h
      rcases hresolve : resolveKey entry.signerKeyId with message | _ | key
      · rw [hresolve] at h
        cases h
      · rw [hresolve] at h
        cases h
      simp only [hresolve, Async.runAlone_bind] at h
      rcases cfg.ingestEntryInternal_cases raw key chain with
        ⟨r, -, hingest⟩ | ⟨entry', mid, haccepted, hingest⟩
      · rw [hingest] at h
        cases h
      · rw [hingest] at h
        obtain ⟨entries, hentries, hall⟩ := ih (i + 1) mid after h
        obtain ⟨prior, newState, hash, -, -, -, -, rfl⟩ :=
          haccepted.authorized
        refine ⟨entry' :: entries, ?_, .cons haccepted.shape hall⟩
        rw [hentries, ACLChain.push, List.append_assoc]
        rfl

/-- A replay that fails leaves what replaying a proper part of its input from
the front leaves. -/
theorem replayLoop_rejected (resolveKey : Bytes → Except String (Option P)) :
    ∀ (raws : List (Option (RawEntry Δ))) (i : ℕ) (chain after : ACLChain Δ S)
      (r : Rejection),
      (cfg.replayLoop resolveKey i raws).runAlone chain = (after, .error r) →
      ∃ accepted raw rest, raws = accepted ++ raw :: rest ∧
        (cfg.replayLoop resolveKey i accepted).runAlone chain =
          (after, .ok ()) := by
  intro raws
  induction raws with
  | nil =>
      intro i chain after r h
      cases (Prod.mk.inj h).2
  | cons raw raws ih =>
      intro i chain after r h
      have hfirst : after = chain → ∃ accepted raw' rest,
          raw :: raws = accepted ++ raw' :: rest ∧
            (cfg.replayLoop resolveKey i accepted).runAlone chain =
              (after, .ok ()) := by
        rintro rfl
        exact ⟨[], raw, raws, rfl, rfl⟩
      rw [replayLoop] at h
      rcases hshape : validateEntryShape raw with message | entry
      · rw [hshape] at h
        exact hfirst (Prod.mk.inj h).1.symm
      simp only [hshape, Async.runAlone_bind, Async.runAlone_awaiting] at h
      rcases hresolve : resolveKey entry.signerKeyId with message | _ | key
      · rw [hresolve] at h
        exact hfirst (Prod.mk.inj h).1.symm
      · rw [hresolve] at h
        exact hfirst (Prod.mk.inj h).1.symm
      simp only [hresolve, Async.runAlone_bind] at h
      rcases cfg.ingestEntryInternal_cases raw key chain with
        ⟨r', -, hingest⟩ | ⟨entry', mid, haccepted, hingest⟩
      · rw [hingest] at h
        exact hfirst (Prod.mk.inj h).1.symm
      · rw [hingest] at h
        obtain ⟨accepted, raw', rest, rfl, hrun⟩ :=
          ih (i + 1) mid after r h
        refine ⟨raw :: accepted, raw', rest, rfl, ?_⟩
        rw [replayLoop]
        simp only [hshape, Async.runAlone_bind, Async.runAlone_awaiting,
          hresolve, hingest]
        exact hrun

/-- The outcome of a call that did not succeed. -/
def Settled.Rejected : Settled → Prop
  | .result (.ok ()) => False
  | _ => True

/-- What a call that did not succeed leaves: a failed replay leaves the entries
of its input up to the first one that is not accepted, any other call the
chain as it was. -/
def LeavesPrefix (chain after : ACLChain Δ S) : Call Δ P → Prop
  | .replay raws resolveKey =>
      ∃ accepted raw rest, raws = accepted ++ raw :: rest ∧
        (cfg.replay accepted resolveKey).runAlone chain = (after, .ok ()) ∧
        List.Forall₂ (fun raw entry => validateEntryShape raw = .ok entry)
          accepted after.entries
  | _ => after = chain

theorem task_rejected (call : Call Δ P) {chain after : ACLChain Δ S}
    {settled : Settled}
    (h : (cfg.task call).runAlone chain = (after, settled))
    (hrejected : settled.Rejected) : cfg.LeavesPrefix chain after call := by
  cases call with
  | ingestEntry raw key =>
      simp only [task, Async.runAlone_bind] at h
      rcases cfg.ingestEntryInternal_cases raw key chain with
        ⟨r, -, hingest⟩ | ⟨entry, after', -, hingest⟩
      · rw [hingest] at h
        exact (Prod.mk.inj h).1.symm
      · rw [hingest] at h
        obtain ⟨-, rfl⟩ := Prod.mk.inj h
        exact hrejected.elim
  | authorAndAppend change key sign timestamp =>
      simp only [task, authorAndAppend, Async.runAlone_bind,
        Async.runAlone_awaiting] at h
      rcases hkey : cfg.serializeKey key with message | keyId
      · rw [hkey] at h
        exact (Prod.mk.inj h).1.symm
      simp only [hkey, Async.runAlone_bind, Async.runAlone_read] at h
      rcases hchange : cfg.serializeChange change with message | _ | bytes
      · rw [hchange] at h
        exact (Prod.mk.inj h).1.symm
      · rw [hchange] at h
        exact (Prod.mk.inj h).1.symm
      simp only [hchange, Async.runAlone_bind, Async.runAlone_awaiting] at h
      split at h
      · exact (Prod.mk.inj h).1.symm
      · simp only [Async.runAlone_bind] at h
        split at h
        · obtain ⟨-, rfl⟩ := Prod.mk.inj h
          exact hrejected.elim
        · rename_i signature _ _ rejection hresult
          rcases cfg.ingestEntryInternal_cases _ key chain with
            ⟨r, -, hingest⟩ | ⟨entry, after', -, hingest⟩
          · rw [hingest] at h
            exact (Prod.mk.inj h).1.symm
          · rw [hingest] at hresult
            cases hresult
  | replay raws resolveKey =>
      simp only [task, replay, Async.runAlone_bind, Async.runAlone_write] at h
      rcases hloop : (cfg.replayLoop resolveKey 0 raws).runAlone
        ACLChain.new with ⟨after', r | ⟨⟩⟩
      · rw [hloop] at h
        obtain ⟨rfl, -⟩ := Prod.mk.inj h
        obtain ⟨accepted, raw, rest, hraws, hrun⟩ :=
          cfg.replayLoop_rejected resolveKey raws 0 _ _ r hloop
        obtain ⟨entries, hentries, hall⟩ :=
          cfg.replayLoop_accepted resolveKey accepted 0 _ _ hrun
        refine ⟨accepted, raw, rest, hraws, ?_, ?_⟩
        · simp only [replay, Async.runAlone_bind, Async.runAlone_write]
          exact hrun
        · rw [hentries]
          exact hall
      · rw [hloop] at h
        obtain ⟨-, rfl⟩ := Prod.mk.inj h
        exact hrejected.elim

/-! ## Concurrent calls -/

section Invariants

variable {inv : ACLChain Δ S → Prop}
  (hnew : inv ACLChain.new)
  (haccepted : ∀ {chain raw key entry after}, inv chain →
    cfg.Accepted chain raw key entry after → inv after)

include haccepted

theorem ingestEntryInternal_keeps_inv (raw : Option (RawEntry Δ)) (key : P)
    {chain : ACLChain Δ S} (h : inv chain) :
    (cfg.ingestEntryInternal raw key).Keeps inv (fun _ => inv) chain :=
  cfg.ingestEntryInternal_keeps h (fun _ _ => h) fun _ _ ha => haccepted h ha

theorem replayLoop_keeps_inv
    (resolveKey : Bytes → Except String (Option P)) :
    ∀ (raws : List (Option (RawEntry Δ))) (i : ℕ) {chain : ACLChain Δ S},
      inv chain →
      (cfg.replayLoop resolveKey i raws).Keeps inv (fun _ => inv) chain := by
  intro raws
  induction raws with
  | nil =>
      intro i chain h
      exact h
  | cons raw raws ih =>
      intro i chain h
      rw [replayLoop]
      rcases validateEntryShape raw with message | entry
      · exact h
      simp only [Async.keeps_bind, Async.keeps_awaiting]
      refine ⟨h, ?_⟩
      rcases resolveKey entry.signerKeyId with message | _ | key
      · exact h
      · exact h
      simp only [Async.keeps_bind]
      refine Async.keeps_imp ?_
        (cfg.ingestEntryInternal_keeps_inv haccepted raw key h)
      rintro (r | ⟨⟩) after hafter
      · exact hafter
      · exact ih (i + 1) hafter

include hnew

/-- Every call keeps, at each of its awaits, what new chains have and accepted
entries keep. -/
theorem task_keeps_inv (call : Call Δ P) {chain : ACLChain Δ S}
    (h : inv chain) : (cfg.task call).Keeps inv (fun _ => inv) chain := by
  cases call with
  | ingestEntry raw key =>
      simp only [task, Async.keeps_bind]
      exact cfg.ingestEntryInternal_keeps_inv haccepted raw key h
  | authorAndAppend change key sign timestamp =>
      simp only [task, authorAndAppend, Async.keeps_bind,
        Async.keeps_awaiting]
      refine ⟨h, ?_⟩
      rcases cfg.serializeKey key with message | keyId
      · exact h
      simp only [Async.keeps_bind, Async.keeps_read]
      rcases cfg.serializeChange change with message | _ | bytes
      · exact h
      · exact h
      simp only [Async.keeps_bind, Async.keeps_awaiting]
      refine ⟨h, ?_⟩
      split
      · exact h
      · simp only [Async.keeps_bind]
        refine Async.keeps_imp ?_
          (cfg.ingestEntryInternal_keeps_inv haccepted _ key h)
        rintro (r | ⟨⟩) after hafter
        · exact hafter
        · exact hafter
  | replay raws resolveKey =>
      simp only [task, replay, Async.keeps_bind, Async.keeps_write]
      exact cfg.replayLoop_keeps_inv haccepted resolveKey raws 0 hnew

end Invariants

/-- A call is issued, or the running call goes on. -/
def event : Option (Call Δ P) → QueueEvent (ACLChain Δ S) Settled
  | some call => .issue (cfg.task call)
  | none => .resume

/-- The queue of a new chain after these events. -/
def execCalls (events : List (Option (Call Δ P))) :
    SerialQueue (ACLChain Δ S) Settled :=
  exec SerialQueue.step ⟨ACLChain.new, [], []⟩ (events.map cfg.event)

/-- The calls that were issued, run one after the other. -/
def sequentialCalls (events : List (Option (Call Δ P))) :
    ACLChain Δ S × List Settled :=
  SerialQueue.sequential ACLChain.new (events.reduceOption.map cfg.task)

/-- The calls take effect one after the other in call order: what settled has
the results of the sequential run, what runs and waits will complete it, and it
does so after finitely many steps. -/
structure InCallOrder (events : List (Option (Call Δ P))) : Prop where
  stage : cfg.sequentialCalls events =
    ((SerialQueue.sequential (cfg.execCalls events).state
      (cfg.execCalls events).waiting).1,
    (cfg.execCalls events).settled ++
      (SerialQueue.sequential (cfg.execCalls events).state
        (cfg.execCalls events).waiting).2)
  settles : ∃ n, cfg.execCalls (events ++ List.replicate n none) =
    ⟨(cfg.sequentialCalls events).1, [], (cfg.sequentialCalls events).2⟩

theorem issued_events (events : List (Option (Call Δ P))) :
    SerialQueue.issued (events.map cfg.event) =
      events.reduceOption.map cfg.task := by
  induction events with
  | nil => rfl
  | cons e events ih =>
      cases e with
      | none =>
          rw [List.reduceOption_cons_of_none]
          exact ih
      | some call =>
          rw [List.reduceOption_cons_of_some]
          exact congrArg (cfg.task call :: ·) ih

/-- The queue of a chain is a stage of the sequential run of its calls. -/
theorem serialises_calls {inv : ACLChain Δ S → Prop}
    (hnew : inv ACLChain.new)
    (haccepted : ∀ {chain raw key entry after}, inv chain →
      cfg.Accepted chain raw key entry after → inv after)
    (events : List (Option (Call Δ P))) :
    SerialQueue.Serialises inv (fun _ => inv) ACLChain.new
      (events.reduceOption.map cfg.task) (cfg.execCalls events) := by
  have hkeeps : ∀ task ∈ SerialQueue.issued (events.map cfg.event),
      ∀ chain, inv chain → task.Keeps inv (fun _ => inv) chain := by
    rw [issued_events]
    intro task hmem chain h
    obtain ⟨call, -, rfl⟩ := List.mem_map.1 hmem
    exact cfg.task_keeps_inv hnew haccepted call h
  have hserial := SerialQueue.serialises_exec inv (fun _ => inv)
    (fun _ _ h => h) hnew (events.map cfg.event) hkeeps
  rwa [issued_events] at hserial

theorem trusted_execCalls (events : List (Option (Call Δ P))) :
    cfg.Trusted (cfg.execCalls events).state :=
  (cfg.serialises_calls cfg.new_trusted (fun h ha => h.accepted cfg ha)
    events).state

/-- Whatever calls are issued, also while others run: the chain is trusted in
every state that is reached, the calls take effect in call order, and a call
that does not succeed changes nothing or leaves the accepted part of a
replay. -/
theorem chain_of_trust (events : List (Option (Call Δ P))) :
    cfg.Trusted (cfg.execCalls events).state ∧ cfg.InCallOrder events ∧
      ∀ (call : Call Δ P) (chain after : ACLChain Δ S) (settled : Settled),
        (cfg.task call).runAlone chain = (after, settled) →
        settled.Rejected → cfg.LeavesPrefix chain after call := by
  have hserial := cfg.serialises_calls cfg.new_trusted
    (fun h ha => h.accepted cfg ha) events
  have hstage : cfg.sequentialCalls events = _ := hserial.finished
  refine ⟨hserial.state, ⟨hstage, ?_⟩,
    fun call chain after settled h hrejected =>
      cfg.task_rejected call h hrejected⟩
  obtain ⟨n, hn⟩ := (cfg.execCalls events).exists_settled
  refine ⟨n, ?_⟩
  have hreplicate : (List.replicate n (none : Option (Call Δ P))).map
      cfg.event = List.replicate n .resume := by
    simp [event]
  rw [execCalls, List.map_append, exec_append, hreplicate]
  refine hn.trans ?_
  rw [hstage]

/-- A configuration for concrete chains: everything verifies, and the state
counts the changes. -/
def countingConfig : ACLChainConfig Unit Unit ℕ where
  verify := fun _ _ _ => .ok true
  serializeKey := fun _ => .ok [0]
  emptyState := .ok 0
  applyChange := fun state _ => .ok (state + 1)
  isWriter := fun _ _ => .ok true
  genesisAuthorizedKeys := [()]
  byteLength := fun _ => none
  serializeChange := fun _ => .ok (some [])
  digest := .ok

/-- The state of an empty chain is undefined, not the empty ACL. -/
theorem emptyChain_state :
    ¬ ∀ events, ∃ state,
      (countingConfig.execCalls events).state.state = some state ∧
        countingConfig.foldState
          (countingConfig.execCalls events).state.entries = .ok state := by
  intro h
  obtain ⟨state, hsome, -⟩ := h []
  cases hsome

/-! ## Agreement -/

/-- The fields of an entry that its payload covers, with the bytes of the
change. -/
structure SameContent {P' : Type} (cfg : ACLChainConfig Δ P S)
    (cfg' : ACLChainConfig Δ P' S) (entry entry' : ACLEntry Δ) : Prop where
  sequenceNumber : entry.sequenceNumber = entry'.sequenceNumber
  timestamp : entry.timestamp = entry'.timestamp
  parentHash : entry.parentHash = entry'.parentHash
  signerKeyId : entry.signerKeyId = entry'.signerKeyId
  change : ∃ changeBytes,
    cfg.serializeChange entry.change = .ok (some changeBytes) ∧
      cfg'.serializeChange entry'.change = .ok (some changeBytes)

theorem encodeEntry_ok {entry : ACLEntry Δ} {payload : Bytes}
    (h : cfg.encodeEntry entry = .ok payload) :
    ∃ changeBytes, cfg.serializeChange entry.change = .ok (some changeBytes) ∧
      changeBytes.length ≤ maxChangeBytes ∧
      payload = entry.payloadFromBytes changeBytes := by
  rw [encodeEntry] at h
  dsimp only at h
  split at h
  · cases h
  split at h
  · cases h
  · cases h
  · rename_i changeBytes hchange
    split at h
    · cases h
    rename_i hle
    split at h
    · cases h
    · exact ⟨changeBytes, hchange, not_lt.1 hle, (Except.ok.inj h).symm⟩

/-- A present parent hash is not empty, so the encoding tells it from an absent
one. -/
theorem parentHash_eq_of_getD {entry entry' : ACLEntry Δ}
    (h : entry.parentHash.getD [] = entry'.parentHash.getD []) :
    entry.parentHash = entry'.parentHash := by
  have hpos := entry.parentHash_length
  have hpos' := entry'.parentHash_length
  rcases hparent : entry.parentHash with _ | hash
  · rcases hparent' : entry'.parentHash with _ | hash'
    · rfl
    · rw [hparent, hparent', Option.getD_none, Option.getD_some] at h
      have hlength := (hpos' hash' hparent').1
      rw [← h] at hlength
      cases hlength
  · rcases hparent' : entry'.parentHash with _ | hash'
    · rw [hparent, hparent', Option.getD_none, Option.getD_some] at h
      have hlength := (hpos hash hparent).1
      rw [h] at hlength
      cases hlength
    · rw [hparent, hparent', Option.getD_some, Option.getD_some] at h
      rw [h]

/-- All fields can be read back from the payload. -/
theorem payloadFromBytes_inj {entry entry' : ACLEntry Δ}
    {changeBytes changeBytes' : Bytes}
    (hchange : changeBytes.length < 2 ^ 32)
    (hchange' : changeBytes'.length < 2 ^ 32)
    (h : entry.payloadFromBytes changeBytes =
      entry'.payloadFromBytes changeBytes') :
    entry.sequenceNumber = entry'.sequenceNumber ∧
      entry.timestamp = entry'.timestamp ∧
      entry.parentHash = entry'.parentHash ∧
      entry.signerKeyId = entry'.signerKeyId ∧ changeBytes = changeBytes' := by
  have hseq := entry.sequenceNumber_le
  have hseq' := entry'.sequenceNumber_le
  have hts : entry.timestamp ≤ 2 ^ 53 - 1 := entry.timestamp_le
  have hts' : entry'.timestamp ≤ 2 ^ 53 - 1 := entry'.timestamp_le
  have hparentLength : ∀ e : ACLEntry Δ,
      (e.parentHash.getD []).length < 256 ^ 4 := by
    intro e
    rcases hparent : e.parentHash with _ | hash
    · simp
    · have hle : hash.length ≤ 64 := (e.parentHash_length hash hparent).2
      simp only [Option.getD_some]
      omega
  have hsignerLength : ∀ e : ACLEntry Δ,
      e.signerKeyId.length < 256 ^ 4 := by
    intro e
    have hle : e.signerKeyId.length ≤ 256 := e.signerKeyId_length.2
    omega
  unfold ACLEntry.payloadFromBytes canonicalEntryPayloadFromBytes at h
  obtain ⟨hsequence, h⟩ := bigEndian_append_inj (by omega) (by omega) h
  obtain ⟨hhigh, h⟩ := bigEndian_append_inj (by omega) (by omega) h
  obtain ⟨hlow, h⟩ := bigEndian_append_mod h
  obtain ⟨hparent, h⟩ := lengthPrefixed_append_inj (hparentLength entry)
    (hparentLength entry') h
  obtain ⟨hsigner, h⟩ := lengthPrefixed_append_inj (hsignerLength entry)
    (hsignerLength entry') h
  rw [← List.append_nil (lengthPrefixed changeBytes),
    ← List.append_nil (lengthPrefixed changeBytes')] at h
  obtain ⟨hbytes, -⟩ := lengthPrefixed_append_inj (by omega) (by omega) h
  have htimestamp : entry.timestamp = entry'.timestamp := by
    omega
  exact ⟨hsequence, htimestamp, parentHash_eq_of_getD hparent, hsigner,
    hbytes⟩

section Agreement

variable {P' : Type} {cfg : ACLChainConfig Δ P S}
  {cfg' : ACLChainConfig Δ P' S}

/-- Entries with the same hash have the same content. -/
theorem HasHash.sameContent (hdigest : cfg'.digest = cfg.digest)
    (hcollision : ∀ payload payload' hash, cfg.digest payload = .ok hash →
      cfg.digest payload' = .ok hash → payload = payload')
    {entry entry' : ACLEntry Δ} {hash : Bytes} (h : cfg.HasHash entry hash)
    (h' : cfg'.HasHash entry' hash) : SameContent cfg cfg' entry entry' := by
  obtain ⟨payload, hencode, hhash⟩ := h
  obtain ⟨payload', hencode', hhash'⟩ := h'
  rw [hdigest] at hhash'
  obtain ⟨bytes, hbytes, hle, rfl⟩ := cfg.encodeEntry_ok hencode
  obtain ⟨bytes', hbytes', hle', rfl⟩ := cfg'.encodeEntry_ok hencode'
  have hsize : maxChangeBytes < 2 ^ 32 := by decide
  obtain ⟨hsequence, htimestamp, hparent, hsigner, rfl⟩ :=
    payloadFromBytes_inj (hle.trans_lt hsize) (hle'.trans_lt hsize)
      (hcollision _ _ _ hhash hhash')
  exact ⟨hsequence, htimestamp, hparent, hsigner, bytes, hbytes, hbytes'⟩

/-- Two trusted chains that agree in one entry agree in all entries before
it. -/
theorem Trusted.sameContent (hdigest : cfg'.digest = cfg.digest)
    (hcollision : ∀ payload payload' hash, cfg.digest payload = .ok hash →
      cfg.digest payload' = .ok hash → payload = payload')
    {chain chain' : ACLChain Δ S} (h : cfg.Trusted chain)
    (h' : cfg'.Trusted chain') :
    ∀ (n i : ℕ) (last last' entry entry' : ACLEntry Δ),
      chain.entries[i + n]? = some last → chain'.entries[i + n]? = some last' →
      SameContent cfg cfg' last last' →
      chain.entries[i]? = some entry → chain'.entries[i]? = some entry' →
      SameContent cfg cfg' entry entry' := by
  intro n
  induction n with
  | zero =>
      intro i last last' entry entry' hlast hlast' hsame hentry hentry'
      rw [Nat.add_zero, hentry, Option.some.injEq] at hlast
      rw [Nat.add_zero, hentry', Option.some.injEq] at hlast'
      rw [hlast, hlast']
      exact hsame
  | succ n ih =>
      intro i last last' entry entry' hlast hlast' hsame hentry hentry'
      have hnext : ∀ {l : List (ACLEntry Δ)} {e : ACLEntry Δ},
          l[i + (n + 1)]? = some e → ∃ e', l[i + 1]? = some e' := by
        intro l e hget
        obtain ⟨hlt, -⟩ := List.getElem?_eq_some_iff.1 hget
        exact ⟨_, List.getElem?_eq_getElem (by omega)⟩
      obtain ⟨next, hnextEntry⟩ := hnext hlast
      obtain ⟨next', hnextEntry'⟩ := hnext hlast'
      have hindex : i + (n + 1) = i + 1 + n := by omega
      rw [hindex] at hlast hlast'
      have hsameNext := ih (i + 1) last last' next next' hlast hlast' hsame
        hnextEntry hnextEntry'
      obtain ⟨hash, hhash, hparent⟩ := h.parent i entry next hentry hnextEntry
      obtain ⟨hash', hhash', hparent'⟩ :=
        h'.parent i entry' next' hentry' hnextEntry'
      have heq := hsameNext.parentHash
      rw [hparent, hparent', Option.some.injEq] at heq
      rw [← heq] at hhash'
      exact hhash.sameContent hdigest hcollision hhash'

/-- The hash of the head belongs to the last entry. -/
theorem Trusted.head {chain : ACLChain Δ S} (h : cfg.Trusted chain) :
    (chain.entries = [] ∧ chain.headHash = none) ∨
      ∃ n last hash, chain.entries.length = n + 1 ∧
        chain.entries[n]? = some last ∧ chain.headHash = some hash ∧
        cfg.HasHash last hash := by
  rcases Nat.eq_zero_or_pos chain.entries.length with hzero | hpos
  · refine Or.inl ⟨List.length_eq_zero_iff.1 hzero, ?_⟩
    have hhashes : chain.entryHashes = [] :=
      List.length_eq_zero_iff.1 (by rw [h.hashes, hzero])
    rw [ACLChain.headHash, hhashes]
    rfl
  · obtain ⟨n, hn⟩ := Nat.exists_eq_succ_of_ne_zero hpos.ne'
    obtain ⟨hash, hget, hhash⟩ := h.hash n _
      (List.getElem?_eq_getElem (show n < chain.entries.length by omega))
    refine Or.inr ⟨n, _, hash, hn, List.getElem?_eq_getElem _, ?_, hhash⟩
    rw [ACLChain.headHash, List.getLast?_eq_getElem?, h.hashes, hn]
    exact hget

/-- The head hash of a chain determines its content. -/
theorem Trusted.sameContent_of_headHash (hdigest : cfg'.digest = cfg.digest)
    (hcollision : ∀ payload payload' hash, cfg.digest payload = .ok hash →
      cfg.digest payload' = .ok hash → payload = payload')
    {chain chain' : ACLChain Δ S} (h : cfg.Trusted chain)
    (h' : cfg'.Trusted chain') (hhead : chain.headHash = chain'.headHash) :
    List.Forall₂ (SameContent cfg cfg') chain.entries chain'.entries := by
  rcases h.head with ⟨hnil, hnone⟩ | ⟨n, last, hash, hlength, hlast, hsome,
    hhash⟩
  · rcases h'.head with ⟨hnil', -⟩ | ⟨-, -, hash', -, -, hsome', -⟩
    · rw [hnil, hnil']
      exact .nil
    · rw [hnone, hsome'] at hhead
      cases hhead
  · rcases h'.head with ⟨-, hnone'⟩ | ⟨n', last', hash', hlength', hlast',
      hsome', hhash'⟩
    · rw [hsome, hnone'] at hhead
      cases hhead
    · rw [hsome, hsome', Option.some.injEq] at hhead
      subst hhead
      have hsame := hhash.sameContent hdigest hcollision hhash'
      -- the sequence number of the last entry gives the length
      have hn : n = n' := by
        rw [← h.sequence n last hlast, ← h'.sequence n' last' hlast']
        exact hsame.sequenceNumber
      subst hn
      rw [List.forall₂_iff_get]
      refine ⟨hlength.trans hlength'.symm, ?_⟩
      intro i hi hi'
      have hin : i + (n - i) = n := by omega
      exact h.sameContent hdigest hcollision h' (n - i) i last last' _ _
        (by rw [hin]; exact hlast) (by rw [hin]; exact hlast') hsame
        (List.getElem?_eq_getElem hi) (List.getElem?_eq_getElem hi')

/-- The fold of a chain depends on its changes only. -/
theorem foldState_congr (hempty : cfg'.emptyState = cfg.emptyState)
    (happly : cfg'.applyChange = cfg.applyChange)
    {entries entries' : List (ACLEntry Δ)}
    (h : entries.map ACLEntry.change = entries'.map ACLEntry.change) :
    cfg.foldState entries = cfg'.foldState entries' := by
  have hmap : ∀ (state : S) (l : List (ACLEntry Δ)),
      l.foldlM (fun state entry => cfg.applyChange state entry.change) state =
        (l.map ACLEntry.change).foldlM cfg.applyChange state := by
    intro state l
    rw [List.foldlM_map]
  simp only [foldState, hempty, happly, hmap, h]

/-- The state of a trusted chain depends on its changes only. -/
theorem Trusted.state_congr (hempty : cfg'.emptyState = cfg.emptyState)
    (happly : cfg'.applyChange = cfg.applyChange)
    {chain chain' : ACLChain Δ S} (h : cfg.Trusted chain)
    (h' : cfg'.Trusted chain')
    (hchange : chain.entries.map ACLEntry.change =
      chain'.entries.map ACLEntry.change) : chain.state = chain'.state := by
  have hiff : chain.entries = [] ↔ chain'.entries = [] := by
    rw [← List.map_eq_nil_iff, hchange, List.map_eq_nil_iff]
  rcases h.state with ⟨hnil, hnone⟩ | ⟨hne, state, hsome, hfold⟩
  · rcases h'.state with ⟨-, hnone'⟩ | ⟨hne', -⟩
    · rw [hnone, hnone']
    · exact absurd (hiff.1 hnil) hne'
  · rcases h'.state with ⟨hnil', -⟩ | ⟨-, state', hsome', hfold'⟩
    · exact absurd (hiff.2 hnil') hne
    · rw [foldState_congr hempty happly hchange, hfold',
        Except.ok.injEq] at hfold
      rw [hsome, hsome', hfold]

/-- Chains with the same head hash, of any two instances after any calls, agree
entry by entry in all that is signed; with the same adapter to the ACL they
have the same state. -/
theorem agree_of_headHash (hdigest : cfg'.digest = cfg.digest)
    (hcollision : ∀ payload payload' hash, cfg.digest payload = .ok hash →
      cfg.digest payload' = .ok hash → payload = payload')
    (events : List (Option (Call Δ P)))
    (events' : List (Option (Call Δ P')))
    (hhead : (cfg.execCalls events).state.headHash =
      (cfg'.execCalls events').state.headHash) :
    (cfg.execCalls events).state.entries.length =
        (cfg'.execCalls events').state.entries.length ∧
      List.Forall₂ (SameContent cfg cfg') (cfg.execCalls events).state.entries
        (cfg'.execCalls events').state.entries ∧
      (cfg'.emptyState = cfg.emptyState →
        cfg'.applyChange = cfg.applyChange →
        cfg'.serializeChange = cfg.serializeChange →
        (∀ change change' bytes,
          cfg.serializeChange change = .ok (some bytes) →
          cfg.serializeChange change' = .ok (some bytes) →
          change = change') →
        (cfg.execCalls events).state.state =
          (cfg'.execCalls events').state.state) := by
  have h := cfg.trusted_execCalls events
  have h' := cfg'.trusted_execCalls events'
  have hall := h.sameContent_of_headHash hdigest hcollision h' hhead
  refine ⟨hall.length_eq, hall, ?_⟩
  intro hempty happly hserialize hinj
  refine h.state_congr hempty happly h' ?_
  rw [← List.forall₂_eq_eq_eq, List.forall₂_map_left_iff,
    List.forall₂_map_right_iff]
  refine hall.imp ?_
  intro entry entry' hsame
  obtain ⟨bytes, hbytes, hbytes'⟩ := hsame.change
  rw [hserialize] at hbytes'
  exact hinj _ _ bytes hbytes hbytes'

/-- An entry for concrete chains. -/
def genesisEntry (signature : Bytes) : RawEntry Unit where
  sequenceNumber := some (.finite 0)
  timestamp := some (.finite 7)
  parentHash := none
  change := ()
  signerKeyId := some [0]
  signature := some signature

/-- Two chains that took the same change with different signatures. -/
theorem agree_of_headHash_counting :
    (∃ hash, (countingConfig.execCalls
        (some (.ingestEntry (some (genesisEntry [1])) ()) ::
          List.replicate 6 none)).state.headHash = some hash) ∧
      (countingConfig.execCalls
        (some (.ingestEntry (some (genesisEntry [1])) ()) ::
          List.replicate 6 none)).state.state =
      (countingConfig.execCalls
        (some (.ingestEntry (some (genesisEntry [2])) ()) ::
          List.replicate 6 none)).state.state := by
  refine ⟨⟨_, rfl⟩, ?_⟩
  refine (agree_of_headHash rfl ?_ _ _ (by decide +kernel)).2.2 rfl rfl rfl ?_
  · intro payload payload' hash h h'
    exact (Except.ok.inj h).trans (Except.ok.inj h').symm
  · intro change change' _ _ _
    rfl

end Agreement

end ACLChainConfig

end Collabswarm
