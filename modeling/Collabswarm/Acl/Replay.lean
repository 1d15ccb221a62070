import Collabswarm.Acl.ChainOfTrust

/-!
# Replaying a chain

The stored entries of a chain, given to `replay` with the keys of their
signers, build the same chain again.  Whatever list is replayed, the chain that
results is the one that ingesting its entries one by one builds up to the first
that is rejected.
-/

namespace Collabswarm

/-- A stored entry, as `entries()` hands it out. -/
def ACLEntry.raw {Δ : Type} (entry : ACLEntry Δ) : RawEntry Δ where
  sequenceNumber := some (.finite entry.sequenceNumber)
  timestamp := some (.finite entry.timestamp)
  parentHash := entry.parentHash.map some
  change := entry.change
  signerKeyId := some entry.signerKeyId
  signature := some entry.signature

theorem JsNumber.asUnsigned_natCast {n bound : ℕ} (h : n ≤ bound) :
    (JsNumber.finite n).asUnsigned bound = some n := by
  simp [JsNumber.asUnsigned, h]

/-- A stored entry has the right shape. -/
theorem validateEntryShape_raw {Δ : Type} (entry : ACLEntry Δ) :
    validateEntryShape (some entry.raw) = .ok entry := by
  have hsequence : ∀ message, checkUnsigned 0xffffffff message
      (some (.finite entry.sequenceNumber)) =
        .ok ⟨entry.sequenceNumber, entry.sequenceNumber_le⟩ := by
    intro message
    simp [checkUnsigned, JsNumber.asUnsigned_natCast entry.sequenceNumber_le,
      entry.sequenceNumber_le]
  have htimestamp : ∀ message, checkUnsigned maxSafeInteger message
      (some (.finite entry.timestamp)) =
        .ok ⟨entry.timestamp, entry.timestamp_le⟩ := by
    intro message
    simp [checkUnsigned, JsNumber.asUnsigned_natCast entry.timestamp_le,
      entry.timestamp_le]
  have hlength : ∀ bound message (bytes : Bytes)
      (h : 0 < bytes.length ∧ bytes.length ≤ bound),
      checkLength bound message bytes = .ok ⟨bytes, h⟩ := by
    intro bound message bytes h
    rw [checkLength, dif_pos h]
  obtain ⟨sequenceNumber, timestamp, parentHash, change, signerKeyId,
    signature, hs, ht, hp, hk, hg⟩ := entry
  dsimp only at hsequence htimestamp
  cases parentHash with
  | none =>
      simp [validateEntryShape, ACLEntry.raw, hsequence, htimestamp, checkBytes,
        hlength _ _ _ hk, hlength _ _ _ hg, bind, Except.bind]
  | some parentHash =>
      simp [validateEntryShape, ACLEntry.raw, hsequence, htimestamp, checkBytes,
        hlength _ _ _ hk, hlength _ _ _ hg, hlength _ _ _ (hp _ rfl), bind,
        Except.bind]

namespace ACLChain

/-- `entries()`. -/
def entriesOf {Δ S : Type} (chain : ACLChain Δ S) : List (Option (RawEntry Δ)) :=
  chain.entries.map fun entry => some entry.raw

end ACLChain

namespace ACLChainConfig

variable {Δ P S : Type} (cfg : ACLChainConfig Δ P S)

/-! ## Accepting entries -/

/-- The configuration treats two keys alike. -/
structure SameKey (key key' : P) : Prop where
  serialize : cfg.serializeKey key = cfg.serializeKey key'
  verify : ∀ payload signature,
    cfg.verify payload key signature = cfg.verify payload key' signature
  isWriter : ∀ state, cfg.isWriter state key = cfg.isWriter state key'

theorem SameKey.isAuthorized {key key' : P} (h : cfg.SameKey key key')
    (empty : Bool) (prior : S) :
    cfg.isAuthorized empty prior key = cfg.isAuthorized empty prior key' := by
  rw [ACLChainConfig.isAuthorized, ACLChainConfig.isAuthorized,
    isInBootstrapSet, isInBootstrapSet, h.serialize, h.isWriter]

/-- All checks of an accepted entry, with the payload they are about. -/
structure Passes (chain : ACLChain Δ S) (key : P) (entry : ACLEntry Δ)
    (after : ACLChain Δ S) : Prop where
  keyId : cfg.serializeKey key = .ok entry.signerKeyId
  sequenceNumber : entry.sequenceNumber = chain.entries.length
  parentHash : entry.parentHash = chain.headHash
  payload : ∃ payload hash prior newState,
    cfg.encodeEntry entry = .ok payload ∧ cfg.digest payload = .ok hash ∧
      cfg.verify payload key entry.signature = .ok true ∧
      chain.state.elim cfg.emptyState .ok = .ok prior ∧
      cfg.isAuthorized chain.entries.isEmpty prior key = .ok true ∧
      cfg.applyChange prior entry.change = .ok newState ∧
      after = chain.push newState entry hash

theorem Accepted.passes {chain after : ACLChain Δ S} {raw : Option (RawEntry Δ)}
    {key : P} {entry : ACLEntry Δ} (h : cfg.Accepted chain raw key entry after) :
    cfg.Passes chain key entry after := by
  obtain ⟨hkey, payload, hencode, hverify⟩ := h.signed
  obtain ⟨prior, newState, hash, hprior, hauthorized, happly,
    ⟨payload', hencode', hdigest⟩, hafter⟩ := h.authorized
  obtain rfl : payload = payload' :=
    Except.ok.inj (hencode.symm.trans hencode')
  exact ⟨hkey, h.sequenceNumber, h.parentHash, payload, hash, prior, newState,
    hencode, hdigest, hverify, hprior, hauthorized, happly, hafter⟩

theorem checkLinks_of_eq {index : ℕ} {entry : ACLEntry Δ} {actual : Bytes}
    {headHash : Option Bytes} (hkey : entry.signerKeyId = actual)
    (hsequence : entry.sequenceNumber = index)
    (hparent : entry.parentHash = headHash) :
    checkLinks index entry actual headHash = .ok () := by
  unfold checkLinks
  rw [if_neg (not_not.2 hkey), if_neg (not_not.2 hsequence), hparent]
  cases headHash with
  | none => rfl
  | some head => exact if_pos rfl

/-- An entry that passes all checks is accepted, under any key that is treated
like that of its signer. -/
theorem ingestEntryInternal_of_passes {chain after : ACLChain Δ S}
    {raw : Option (RawEntry Δ)} {key key' : P} {entry : ACLEntry Δ}
    (hshape : validateEntryShape raw = .ok entry)
    (h : cfg.Passes chain key entry after) (hsame : cfg.SameKey key key') :
    (cfg.ingestEntryInternal raw key').runAlone chain = (after, .ok ()) := by
  obtain ⟨payload, hash, prior, newState, hencode, hdigest, hverify, hprior,
    hauthorized, happly, rfl⟩ := h.payload
  have hkey := h.keyId
  have hlinks : checkLinks chain.entries.length entry entry.signerKeyId
      chain.headHash = .ok () :=
    checkLinks_of_eq rfl h.sequenceNumber h.parentHash
  rw [hsame.serialize] at hkey
  rw [hsame.verify] at hverify
  rw [hsame.isAuthorized] at hauthorized
  simp [ingestEntryInternal, hshape, hkey, hlinks, hencode, hdigest, hverify,
    hprior, hauthorized, happly]

/-! ## Replaying the stored entries -/

/-- The chains that accepted entries build. -/
inductive Built : ACLChain Δ S → Prop
  | new : Built ACLChain.new
  | accepted {chain after : ACLChain Δ S} {raw : Option (RawEntry Δ)} {key : P}
      {entry : ACLEntry Δ} : Built chain →
      cfg.Accepted chain raw key entry after → Built after

theorem built_execCalls (events : List (Option (Call Δ P))) :
    cfg.Built (cfg.execCalls events).state :=
  (cfg.serialises_calls .new (fun h ha => h.accepted ha) events).state

/-- The function finds the key that serializes to this id: every other key that
does is treated alike. -/
def Resolves (resolveKey : Bytes → Except String (Option P)) (keyId : Bytes) :
    Prop :=
  ∃ key, resolveKey keyId = .ok (some key) ∧
    cfg.serializeKey key = .ok keyId ∧
    ∀ key', cfg.serializeKey key' = .ok keyId → cfg.SameKey key' key

theorem replayLoop_append (resolveKey : Bytes → Except String (Option P))
    {raws' : List (Option (RawEntry Δ))} :
    ∀ (raws : List (Option (RawEntry Δ))) (i : ℕ) (chain mid : ACLChain Δ S),
      (cfg.replayLoop resolveKey i raws).runAlone chain = (mid, .ok ()) →
      (cfg.replayLoop resolveKey i (raws ++ raws')).runAlone chain =
        (cfg.replayLoop resolveKey (i + raws.length) raws').runAlone mid := by
  intro raws
  induction raws with
  | nil =>
      intro i chain mid h
      obtain ⟨rfl, -⟩ := Prod.mk.inj h
      rfl
  | cons raw raws ih =>
      intro i chain mid h
      rw [replayLoop] at h
      rw [List.cons_append, replayLoop]
      rcases hshape : validateEntryShape raw with message | entry
      · rw [hshape] at h
        cases h
      simp only [hshape, Async.runAlone_bind, Async.runAlone_awaiting] at h ⊢
      rcases hresolve : resolveKey entry.signerKeyId with message | _ | key
      · rw [hresolve] at h
        cases h
      · rw [hresolve] at h
        cases h
      simp only [hresolve, Async.runAlone_bind] at h ⊢
      rcases hingest : (cfg.ingestEntryInternal raw key).runAlone chain with
        ⟨next, r | ⟨⟩⟩
      · rw [hingest] at h
        cases h
      · rw [hingest] at h
        dsimp only at h ⊢
        rw [ih (i + 1) next mid h, List.length_cons, Nat.add_right_comm,
          Nat.add_assoc]

/-- One more entry whose key is resolved. -/
theorem replayLoop_singleton {resolveKey : Bytes → Except String (Option P)}
    {chain after : ACLChain Δ S} {raw : Option (RawEntry Δ)} {key : P}
    {entry : ACLEntry Δ} (i : ℕ) (h : cfg.Accepted chain raw key entry after)
    (hresolves : cfg.Resolves resolveKey entry.signerKeyId) :
    (cfg.replayLoop resolveKey i [some entry.raw]).runAlone chain =
      (after, .ok ()) := by
  obtain ⟨key', hkey', -, hsame⟩ := hresolves
  have hpasses := h.passes
  have hingest := cfg.ingestEntryInternal_of_passes
    (validateEntryShape_raw entry) hpasses (hsame key hpasses.keyId)
  simp [replayLoop, validateEntryShape_raw, hkey', hingest]

/-- Replaying what a chain has stored builds it again. -/
theorem Built.replayLoop {chain : ACLChain Δ S} (h : cfg.Built chain)
    {resolveKey : Bytes → Except String (Option P)}
    (hresolves : ∀ entry ∈ chain.entries,
      cfg.Resolves resolveKey entry.signerKeyId) :
    (cfg.replayLoop resolveKey 0 chain.entriesOf).runAlone ACLChain.new =
      (chain, .ok ()) := by
  induction h with
  | new => rfl
  | @accepted chain after raw key entry h ha ih =>
      obtain ⟨prior, newState, hash, -, -, -, -, hafter⟩ := ha.authorized
      have hentries : after.entries = chain.entries ++ [entry] := by
        rw [hafter]
        rfl
      rw [ACLChain.entriesOf, hentries, List.map_append]
      have hold := ih fun e he =>
        hresolves e (hentries ▸ List.mem_append_left _ he)
      rw [ACLChain.entriesOf] at hold
      rw [cfg.replayLoop_append resolveKey _ 0 _ _ hold]
      exact cfg.replayLoop_singleton _ ha
        (hresolves entry (hentries ▸ List.mem_append_right _ (by simp)))

/-! ## Replaying any list -/

/-- The key with which an entry of the right shape is ingested. -/
def ResolvesTo (resolveKey : Bytes → Except String (Option P))
    (raw : Option (RawEntry Δ)) (key : P) : Prop :=
  ∀ entry, validateEntryShape raw = .ok entry →
    resolveKey entry.signerKeyId = .ok (some key)

/-- Successive calls of `ingestEntry` accept the entries. -/
inductive IngestsAll (resolveKey : Bytes → Except String (Option P)) :
    ACLChain Δ S → List (Option (RawEntry Δ)) → ACLChain Δ S → Prop
  | nil (chain : ACLChain Δ S) : IngestsAll resolveKey chain [] chain
  | cons {chain mid after : ACLChain Δ S} {raw : Option (RawEntry Δ)}
      {raws : List (Option (RawEntry Δ))} {key : P} :
      ResolvesTo resolveKey raw key →
      (cfg.task (.ingestEntry raw key)).runAlone chain =
        (mid, .result (.ok ())) →
      IngestsAll resolveKey mid raws after →
      IngestsAll resolveKey chain (raw :: raws) after

/-- No key is found for the entry, or `ingestEntry` rejects it for this
reason. -/
def RejectsNext (resolveKey : Bytes → Except String (Option P))
    (chain : ACLChain Δ S) (raw : Option (RawEntry Δ)) (r : Rejection) : Prop :=
  ∀ key, ResolvesTo resolveKey raw key →
    (cfg.task (.ingestEntry raw key)).runAlone chain = (chain, .result (.error r))

/-- The replay accepts the longest part of the list that successive calls of
`ingestEntry` on an empty chain accept, and reports the index of the first
entry after it. -/
def ReplaysAsIngested (resolveKey : Bytes → Except String (Option P))
    (raws : List (Option (RawEntry Δ))) (chain : ACLChain Δ S) : Prop :=
  ∃ accepted rest after, raws = accepted ++ rest ∧
    cfg.IngestsAll resolveKey ACLChain.new accepted after ∧
    ((rest = [] ∧ (cfg.task (.replay raws resolveKey)).runAlone chain =
        (after, .result (.ok ()))) ∨
      ∃ raw tail r, rest = raw :: tail ∧
        cfg.RejectsNext resolveKey after raw r ∧ r.index = accepted.length ∧
        (cfg.task (.replay raws resolveKey)).runAlone chain =
          (after, .result (.error r)))

theorem rejectsNext_of_shape {resolveKey : Bytes → Except String (Option P)}
    {chain : ACLChain Δ S} {raw : Option (RawEntry Δ)} {message : String}
    (h : validateEntryShape raw = .error message) :
    cfg.RejectsNext resolveKey chain raw
      ⟨.malformedEntry, message, chain.entries.length⟩ := by
  intro key _
  simp [task, ingestEntryInternal, h]

/-- An entry whose key is not found is rejected, whatever the reason. -/
theorem rejectsNext_of_unresolved
    {resolveKey : Bytes → Except String (Option P)} {chain : ACLChain Δ S}
    {raw : Option (RawEntry Δ)} {entry : ACLEntry Δ}
    (hshape : validateEntryShape raw = .ok entry)
    (hresolve : ∀ key, resolveKey entry.signerKeyId ≠ .ok (some key))
    (r : Rejection) : cfg.RejectsNext resolveKey chain raw r :=
  fun key hkey => absurd (hkey entry hshape) (hresolve key)

/-- One round of the replay rejects the entry where it stands, or ingests it
and goes on from the longer chain. -/
theorem replayLoop_cons_cases (resolveKey : Bytes → Except String (Option P))
    (raw : Option (RawEntry Δ)) (raws : List (Option (RawEntry Δ)))
    (chain : ACLChain Δ S) :
    (∃ r, cfg.RejectsNext resolveKey chain raw r ∧
      r.index = chain.entries.length ∧
      (cfg.replayLoop resolveKey chain.entries.length (raw :: raws)).runAlone
        chain = (chain, .error r)) ∨
    ∃ key mid, ResolvesTo resolveKey raw key ∧
      (cfg.task (.ingestEntry raw key)).runAlone chain =
        (mid, .result (.ok ())) ∧
      mid.entries.length = chain.entries.length + 1 ∧
      (cfg.replayLoop resolveKey chain.entries.length (raw :: raws)).runAlone
        chain =
          (cfg.replayLoop resolveKey mid.entries.length raws).runAlone mid := by
  rcases hshape : validateEntryShape raw with message | entry
  · refine Or.inl ⟨_, cfg.rejectsNext_of_shape hshape, rfl, ?_⟩
    rw [replayLoop, hshape]
    rfl
  let i := chain.entries.length
  rcases hresolve : resolveKey entry.signerKeyId with message | _ | key
  · refine Or.inl ⟨⟨.unknownSignerKey,
      s!"resolveKey threw at entry {i}: " ++ message, i⟩,
      cfg.rejectsNext_of_unresolved hshape (by simp [hresolve]) _, rfl, ?_⟩
    rw [replayLoop, hshape]
    simp only [Async.runAlone_bind, Async.runAlone_awaiting, hresolve]
    rfl
  · refine Or.inl ⟨⟨.unknownSignerKey,
      s!"no public key available for signerKeyId at entry {i}", i⟩,
      cfg.rejectsNext_of_unresolved hshape (by simp [hresolve]) _, rfl, ?_⟩
    rw [replayLoop, hshape]
    simp only [Async.runAlone_bind, Async.runAlone_awaiting, hresolve]
    rfl
  rcases cfg.ingestEntryInternal_cases raw key chain with
    ⟨r, hindex, hingest⟩ | ⟨entry', mid, haccepted, hingest⟩
  · refine Or.inl ⟨r, fun key' hkey' => ?_, hindex, ?_⟩
    · obtain rfl : key' = key := by
        have hsame := (hkey' entry hshape).symm.trans hresolve
        exact Option.some.inj (Except.ok.inj hsame)
      simp [task, hingest]
    · rw [replayLoop, hshape]
      simp only [Async.runAlone_bind, Async.runAlone_awaiting, hresolve,
        hingest]
      rfl
  · obtain ⟨prior, newState, hash, -, -, -, -, hmid⟩ := haccepted.authorized
    have hlength : mid.entries.length = chain.entries.length + 1 := by
      rw [hmid]
      simp [ACLChain.push]
    refine Or.inr ⟨key, mid, fun entry' hentry' => ?_, by simp [task, hingest],
      hlength, ?_⟩
    · obtain rfl := Except.ok.inj (hshape.symm.trans hentry')
      exact hresolve
    · rw [replayLoop, hshape, hlength]
      simp only [Async.runAlone_bind, Async.runAlone_awaiting, hresolve,
        hingest]

/-- Replaying from some chain on, against ingesting one by one. -/
theorem replayLoop_cases (resolveKey : Bytes → Except String (Option P)) :
    ∀ (raws : List (Option (RawEntry Δ))) (chain : ACLChain Δ S),
      ∃ accepted rest after, raws = accepted ++ rest ∧
        cfg.IngestsAll resolveKey chain accepted after ∧
        ((rest = [] ∧
          (cfg.replayLoop resolveKey chain.entries.length raws).runAlone chain =
            (after, .ok ())) ∨
          ∃ raw tail r, rest = raw :: tail ∧
            cfg.RejectsNext resolveKey after raw r ∧
            r.index = chain.entries.length + accepted.length ∧
            (cfg.replayLoop resolveKey chain.entries.length raws).runAlone
              chain = (after, .error r)) := by
  intro raws
  induction raws with
  | nil =>
      intro chain
      exact ⟨[], [], chain, rfl, .nil chain, Or.inl ⟨rfl, rfl⟩⟩
  | cons raw raws ih =>
      intro chain
      rcases cfg.replayLoop_cons_cases resolveKey raw raws chain with
        ⟨r, hrejects, hindex, hrun⟩ | ⟨key, mid, hkey, htask, hlength, hrest⟩
      · exact ⟨[], raw :: raws, chain, rfl, .nil chain,
          Or.inr ⟨raw, raws, r, rfl, hrejects, hindex, hrun⟩⟩
      · obtain ⟨accepted, rest, after, hraws, hingests, hcases⟩ := ih mid
        refine ⟨raw :: accepted, rest, after, by rw [hraws, List.cons_append],
          .cons hkey htask hingests, ?_⟩
        rw [hrest, List.length_cons]
        rcases hcases with ⟨hnil, hrun⟩ | ⟨raw', tail, r, htail, hrejects,
          hindex, hrun⟩
        · exact Or.inl ⟨hnil, hrun⟩
        · exact Or.inr ⟨raw', tail, r, htail, hrejects, by omega, hrun⟩

theorem replay_runAlone (raws : List (Option (RawEntry Δ)))
    (resolveKey : Bytes → Except String (Option P)) (chain : ACLChain Δ S) :
    (cfg.task (.replay raws resolveKey)).runAlone chain =
      (((cfg.replayLoop resolveKey 0 raws).runAlone ACLChain.new).1,
        .result ((cfg.replayLoop resolveKey 0 raws).runAlone
          ACLChain.new).2) := by
  simp [task, replay]

theorem replaysAsIngested (resolveKey : Bytes → Except String (Option P))
    (raws : List (Option (RawEntry Δ))) (chain : ACLChain Δ S) :
    cfg.ReplaysAsIngested resolveKey raws chain := by
  obtain ⟨accepted, rest, after, hraws, hingests, hcases⟩ :=
    cfg.replayLoop_cases resolveKey raws ACLChain.new
  have hzero : (ACLChain.new : ACLChain Δ S).entries.length = 0 := rfl
  rw [hzero] at hcases
  refine ⟨accepted, rest, after, hraws, hingests, ?_⟩
  rw [replay_runAlone]
  rcases hcases with ⟨hnil, hrun⟩ | ⟨raw, tail, r, hrest, hrejects, hindex,
    hrun⟩
  · exact Or.inl ⟨hnil, by rw [hrun]⟩
  · exact Or.inr ⟨raw, tail, r, hrest, hrejects, by omega, by rw [hrun]⟩

/-- Replaying the entries of a chain that any calls have built gives the chain
again, whatever the replaying chain held, and replaying any list does what
ingesting its entries one by one does. -/
theorem replay_reproduces :
    (∀ (events : List (Option (Call Δ P)))
      (resolveKey : Bytes → Except String (Option P)),
      (∀ entry ∈ (cfg.execCalls events).state.entries,
        cfg.Resolves resolveKey entry.signerKeyId) →
      ∀ chain : ACLChain Δ S,
        (cfg.task (.replay (cfg.execCalls events).state.entriesOf
          resolveKey)).runAlone chain =
            ((cfg.execCalls events).state, .result (.ok ()))) ∧
    ∀ resolveKey raws (chain : ACLChain Δ S),
      cfg.ReplaysAsIngested resolveKey raws chain := by
  refine ⟨fun events resolveKey hresolves chain => ?_,
    cfg.replaysAsIngested⟩
  have hbuilt := cfg.built_execCalls events
  rw [replay_runAlone, hbuilt.replayLoop cfg hresolves]

/-- The only key of the counting configuration is found. -/
theorem replay_reproduces_counting :
    (countingConfig.task (.replay (countingConfig.execCalls
        (some (.authorAndAppend () () (fun _ => .ok [1]) (.finite 5)) ::
          List.replicate 8 none)).state.entriesOf
        fun _ => .ok (some ()))).runAlone ACLChain.new =
      ((countingConfig.execCalls
        (some (.authorAndAppend () () (fun _ => .ok [1]) (.finite 5)) ::
          List.replicate 8 none)).state, .result (.ok ())) := by
  refine countingConfig.replay_reproduces.1 _ _ (fun entry hentry => ?_) _
  obtain ⟨i, hi⟩ := List.getElem?_of_mem hentry
  obtain ⟨key, hsigned, -⟩ :=
    (countingConfig.trusted_execCalls _).signer i entry hi
  exact ⟨(), rfl, hsigned.1, fun key' _ => ⟨rfl, fun _ _ => rfl, fun _ => rfl⟩⟩

end ACLChainConfig

end Collabswarm
