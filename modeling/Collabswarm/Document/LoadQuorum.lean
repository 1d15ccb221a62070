import Collabswarm.Support.Bytes
import Collabswarm.Support.Tally

/-!
# The quorum of an initial load

`runLoadQuorum` asks the first peers of a list for the hash of their tips and
goes on with a load only when enough of them agree.  The number of peers that
are asked is bounded by the configured `K`, and the threshold is a strict
majority of the peers that are asked.  Up to `⌊(k - 1) / 2⌋` of the `k` peers
that are asked may then answer anything.
-/

namespace Collabswarm.Document

/-! ## Advertisements -/

/-- What a peer votes for: the hash of its tips, or that it does not know the
document. -/
inductive TipVote where
  | hash (bytes : Bytes)
  | unknownDoc
  deriving DecidableEq

/-- The outcome of a probe: a vote, no vote, or an exception. -/
abbrev ProbeOutcome := Except String (Option TipVote)

/-- The vote of one peer that was asked. -/
structure PeerTipAdvertisement where
  peerId : String
  hash : Option TipVote
  deriving DecidableEq

/-- `tipsHashToHex`. -/
def tipsHashToHex (hash : Bytes) : String :=
  String.ofList (hash.flatMap fun b =>
    [Nat.digitChar (b.toNat / 16), Nat.digitChar (b.toNat % 16)])

/-- `UNKNOWN_DOC_TALLY_KEY`. -/
def unknownDocTallyKey : String := "unknown-doc"

/-- The key under which a vote is counted. -/
def TipVote.key : TipVote → String
  | .hash bytes => tipsHashToHex bytes
  | .unknownDoc => unknownDocTallyKey

/-- The bucket a peer is counted in. -/
def PeerTipAdvertisement.vote (adv : PeerTipAdvertisement) :
    Option (String × String) :=
  adv.hash.map fun v => (v.key, adv.peerId)

/-! ## The decision -/

/-- `LoadQuorumFailedReason`, as far as the quorum round gives it. -/
inductive LoadQuorumFailedReason where
  | insufficientResponses
  | noMajority
  | noPeersQueried
  | invalidConfig
  deriving DecidableEq

/-- What the peers agreed on. -/
inductive DecisionKind where
  | tipHash
  | newDoc
  deriving DecidableEq

/-- `LoadQuorumDecision`. -/
inductive LoadQuorumDecision where
  | ok (kind : DecisionKind) (winningHashHex : String)
      (agreeingPeerIds : List String) (respondingCount effectiveQ : ℕ)
  | failed (reason : LoadQuorumFailedReason) (respondingCount effectiveQ : ℕ)
      (agreement : List (String × ℕ))
  deriving DecidableEq

/-- The buckets that take part in the vote: a vote for a hash excludes the
peers that do not know the document. -/
def eligibleBuckets (agreement : InsertionMap String (List String)) :
    List (String × List String) :=
  if agreement.keys.any (· ≠ unknownDocTallyKey) then
    agreement.entries.filter (·.1 ≠ unknownDocTallyKey)
  else agreement.entries

/-- `decideLoadQuorum`. -/
def decideLoadQuorum (advertisements : List PeerTipAdvertisement) (q : ℕ) :
    Except String LoadQuorumDecision :=
  if q < 1 then
    .error (s!"decideLoadQuorum: q must be a positive integer; got {q}. " ++
      "Pass the value through effectiveQ() / runLoadQuorum() so the " ++
      "clamp against the responding cohort fires before reaching this " ++
      "function.")
  else if advertisements = [] then .ok (.failed .noPeersQueried 0 q [])
  else
    let agreement := Tally.tally PeerTipAdvertisement.vote advertisements
    let respondingCount := advertisements.countP (·.hash.isSome)
    if respondingCount = 0 then
      .ok (.failed .insufficientResponses respondingCount q [])
    else
      let best := Tally.largest (eligibleBuckets agreement)
      let reason := if respondingCount < q then
        LoadQuorumFailedReason.insufficientResponses else .noMajority
      let failed := LoadQuorumDecision.failed reason respondingCount q
        (agreement.entries.map fun e => (e.1, e.2.length))
      match best.1 with
      | none => .ok failed
      | some bestKey =>
          if best.2.length < q then .ok failed
          else
            .ok (.ok (if bestKey = unknownDocTallyKey then .newDoc else .tipHash)
              bestKey best.2 respondingCount q)

/-! ## Thresholds and configuration -/

/-- A number of the configuration with its text in messages. -/
inductive ConfigNumber where
  | integer (n : ℤ) (text : String)
  | fraction (floor : ℤ) (text : String)
  | nonFinite (text : String)
  deriving DecidableEq

/-- `formatConfigValue`. -/
def ConfigNumber.format : ConfigNumber → String
  | .integer _ text => text
  | .fraction _ text => text
  | .nonFinite text => text

/-- `defaultQuorumQ`. -/
def defaultQuorumQ (k : ℕ) : ℕ := if k = 0 then 0 else k / 2 + 1

/-- `effectiveK`. -/
def effectiveK (configuredK : ConfigNumber) (knownPeersCount : ℕ) : ℕ :=
  match configuredK with
  | .nonFinite _ => 0
  | .integer n _ => (min n knownPeersCount).toNat
  | .fraction floor _ => (min floor knownPeersCount).toNat

/-- `effectiveQ`. -/
def effectiveQ (configuredQ : ConfigNumber) (k : ℕ) : ℕ :=
  if k = 0 then 0
  else
    match configuredQ with
    | .nonFinite _ => defaultQuorumQ k
    | .integer n _ => if n < 1 then 1 else if k < n then k else n.toNat
    | .fraction floor _ =>
        if floor < 1 then 1 else if k ≤ floor then k else floor.toNat

/-- `LoadQuorumOrchestratorConfig`. -/
structure LoadQuorumOrchestratorConfig where
  enabled : Option Bool
  k : Option ConfigNumber
  q : Option ConfigNumber
  timeoutMs : Option ConfigNumber
  allowSinglePeer : Option Bool

/-- `LOAD_QUORUM_TIMEOUT_MS_MAX`. -/
def loadQuorumTimeoutMsMax : ℕ := 5 * 60 * 1000

/-- `checkPositiveInt`; the error is the `detail` of the failure. -/
def checkPositiveInt (name : String) (value : Option ConfigNumber) :
    Except String Unit :=
  match value with
  | none => .ok ()
  | some value =>
      let fault := s!"{name} must be a positive integer; got {value.format}"
      match value with
      | .integer n _ => if n < 1 then .error fault else .ok ()
      | _ => .error fault

/-- `checkBoundedPositiveInt`; the error is the `detail` of the failure. -/
def checkBoundedPositiveInt (name : String) (value : Option ConfigNumber)
    (max : ℕ) : Except String Unit :=
  match value with
  | none => .ok ()
  | some value =>
      let fault := s!"{name} must be a positive integer no greater than {max}; " ++
        s!"got {value.format}"
      match value with
      | .integer n _ => if n < 1 ∨ max < n then .error fault else .ok ()
      | _ => .error fault

/-- `validateLoadQuorumConfig`; the error is the `detail` of the failure. -/
def validateLoadQuorumConfig (config : LoadQuorumOrchestratorConfig) :
    Except String Unit := do
  checkPositiveInt "loadQuorumK" config.k
  checkPositiveInt "loadQuorumQ" config.q
  checkBoundedPositiveInt "loadQuorumTimeoutMs" config.timeoutMs
    loadQuorumTimeoutMsMax

/-! ## The quorum round -/

/-- `LoadQuorumFailedError`, as the quorum round throws it. -/
structure LoadQuorumFailedError where
  documentPath : String
  reason : LoadQuorumFailedReason
  respondingCount : ℕ
  requiredQ : ℕ
  agreement : List (String × ℕ)
  detail : Option String
  deriving DecidableEq

/-- What a quorum round throws. -/
inductive LoadQuorumError where
  | loadQuorumFailed (error : LoadQuorumFailedError)
  | error (message : String)
  deriving DecidableEq

/-- `LoadQuorumOrchestratorResult`. -/
inductive LoadQuorumOrchestratorResult (P : Type) where
  | skipped
  | newDoc
  | ok (narrowedPeers : List P) (winningHashHex : String)
  deriving DecidableEq

/-- The result of a probe; an exception counts as no vote. -/
def contained : ProbeOutcome → Option TipVote
  | .ok vote => vote
  | .error _ => none

section Round

variable {P : Type}

/-- The configured `K`, which is `3` by default. -/
def LoadQuorumOrchestratorConfig.configuredK
    (config : LoadQuorumOrchestratorConfig) : ConfigNumber :=
  config.k.getD (.integer 3 "3")

/-- The number of peers that are asked. -/
def LoadQuorumOrchestratorConfig.probeCount
    (config : LoadQuorumOrchestratorConfig) (peers : List P) : ℕ :=
  effectiveK config.configuredK peers.length

/-- The votes that are needed. -/
def LoadQuorumOrchestratorConfig.requiredQ
    (config : LoadQuorumOrchestratorConfig) (k : ℕ) : ℕ :=
  effectiveQ
    (config.q.getD (.integer (defaultQuorumQ k) (toString (defaultQuorumQ k))))
    k

/-- The pass-through of a single peer. -/
def singlePeerLoad (documentPath : String) (probeFn : P → ProbeOutcome)
    (peer : P) : Except LoadQuorumError (LoadQuorumOrchestratorResult P) :=
  match contained (probeFn peer) with
  | none =>
      .error (.loadQuorumFailed
        ⟨documentPath, .insufficientResponses, 0, 1, [], none⟩)
  | some .unknownDoc => .ok .newDoc
  | some (.hash bytes) => .ok (.ok [peer] (tipsHashToHex bytes))

/-- The advertisements of the peers that are asked. -/
def advertise (peerIdOf : P → String) (probeFn : P → ProbeOutcome)
    (probed : List P) : List PeerTipAdvertisement :=
  probed.map fun p => ⟨peerIdOf p, contained (probeFn p)⟩

/-- What follows from the decision: an error, a new document, or the peers
that agreed. -/
def narrow (documentPath : String) (peerIdOf : P → String) (peers : List P) :
    LoadQuorumDecision →
      Except LoadQuorumError (LoadQuorumOrchestratorResult P)
  | .failed reason respondingCount effectiveQ agreement =>
      .error (.loadQuorumFailed
        ⟨documentPath, reason, respondingCount, effectiveQ, agreement, none⟩)
  | .ok .newDoc _ _ _ _ => .ok .newDoc
  | .ok .tipHash winningHashHex agreeingPeerIds respondingCount effectiveQ =>
      let narrowed := peers.filter (peerIdOf · ∈ agreeingPeerIds)
      if narrowed.length = 0 then
        .error (.loadQuorumFailed
          ⟨documentPath, .noMajority, respondingCount, effectiveQ,
            [(winningHashHex, agreeingPeerIds.length)], none⟩)
      else .ok (.ok narrowed winningHashHex)

/-- `runLoadQuorum`. -/
def runLoadQuorum (peers : List P) (peerIdOf : P → String)
    (probeFn : P → ProbeOutcome) (documentPath : String)
    (config : LoadQuorumOrchestratorConfig) :
    Except LoadQuorumError (LoadQuorumOrchestratorResult P) :=
  if config.enabled.getD true = false then .ok .skipped
  else
    match validateLoadQuorumConfig config with
    | .error detail =>
        .error (.loadQuorumFailed
          ⟨documentPath, .invalidConfig, 0, 0, [], some detail⟩)
    | .ok _ =>
        let k := config.probeCount peers
        let q := config.requiredQ k
        if k = 0 then .ok .skipped
        else if k = 1 ∧ config.allowSinglePeer.getD false = false then
          .error (.loadQuorumFailed
            ⟨documentPath, .insufficientResponses, 0, 2, [], none⟩)
        else
          match peers with
          | [] => .ok .skipped
          | probedPeer :: _ =>
              if k = 1 then singlePeerLoad documentPath probeFn probedPeer
              else
                match decideLoadQuorum
                    (advertise peerIdOf probeFn (peers.take k)) q with
                | .error message => .error (.error message)
                | .ok decision => narrow documentPath peerIdOf peers decision

end Round

/-! ## What a decision rests on -/

theorem digitChar_ne_u {n : ℕ} (h : n < 16) : Nat.digitChar n ≠ 'u' := by
  interval_cases n <;> decide

/-- The key of the peers that do not know the document is no hash. -/
theorem tipsHashToHex_ne (bytes : Bytes) :
    tipsHashToHex bytes ≠ unknownDocTallyKey := by
  intro h
  have hlist := congrArg String.toList h
  rw [tipsHashToHex, String.toList_ofList] at hlist
  have hu : 'u' ∈ bytes.flatMap fun b =>
      [Nat.digitChar (b.toNat / 16), Nat.digitChar (b.toNat % 16)] := by
    rw [hlist]
    decide
  obtain ⟨b, -, hb⟩ := List.mem_flatMap.1 hu
  have hlt := b.toNat_lt
  rcases List.mem_pair.1 hb with hb | hb
  · exact digitChar_ne_u (by omega) hb.symm
  · exact digitChar_ne_u (by omega) hb.symm

section Decision

variable {advertisements : List PeerTipAdvertisement} {q : ℕ}

/-- The votes for a key. -/
def votesFor (key : String) (advertisements : List PeerTipAdvertisement) :
    List String :=
  Tally.votesFor PeerTipAdvertisement.vote key advertisements

/-- A bucket that takes part in the vote holds the votes for its key, and it
is the one of the peers that do not know the document only where nobody voted
for a hash. -/
theorem mem_eligibleBuckets {e : String × List String}
    (he : e ∈ eligibleBuckets
      (Tally.tally PeerTipAdvertisement.vote advertisements)) :
    e.2 = votesFor e.1 advertisements ∧
      (e.1 = unknownDocTallyKey → ∀ key, key ≠ unknownDocTallyKey →
        votesFor key advertisements = []) := by
  rw [eligibleBuckets] at he
  split at he
  · obtain ⟨hmem, hkey⟩ := List.mem_filter.1 he
    refine ⟨(Tally.mem_entries_tally hmem).1, fun hunknown => ?_⟩
    simp [hunknown] at hkey
  · rename_i hnone
    refine ⟨(Tally.mem_entries_tally he).1, fun _ key hkey => ?_⟩
    by_contra hvotes
    have hentry := Tally.votesFor_mem_entries hvotes
    apply hnone
    rw [List.any_eq_true]
    exact ⟨key, List.mem_map_of_mem hentry, by simpa using hkey⟩

/-- The bucket of a hash that was voted for takes part in the vote. -/
theorem votesFor_mem_eligibleBuckets {key : String}
    (hkey : key ≠ unknownDocTallyKey)
    (hvotes : votesFor key advertisements ≠ []) :
    (key, votesFor key advertisements) ∈ eligibleBuckets
      (Tally.tally PeerTipAdvertisement.vote advertisements) := by
  have hentry := Tally.votesFor_mem_entries hvotes
  rw [eligibleBuckets]
  split
  · exact List.mem_filter.2 ⟨hentry, by simpa using hkey⟩
  · exact hentry

/-- A decision has at least `q` votes for its key, and it is for a new document
exactly where it rests on the peers that do not know the document. -/
theorem decideLoadQuorum_ok {kind : DecisionKind} {key : String}
    {ids : List String} {responding q' : ℕ}
    (h : decideLoadQuorum advertisements q =
      .ok (.ok kind key ids responding q')) :
    ids = votesFor key advertisements ∧ q ≤ ids.length ∧
      (kind = .newDoc ↔ key = unknownDocTallyKey) ∧
      (key = unknownDocTallyKey → ∀ key, key ≠ unknownDocTallyKey →
        votesFor key advertisements = []) := by
  have hbest := Tally.best_largest (eligibleBuckets
    (Tally.tally PeerTipAdvertisement.vote advertisements))
  rw [decideLoadQuorum] at h
  split at h
  · cases h
  split at h
  · cases h
  dsimp only at h
  split at h
  · cases h
  split at h
  · cases h
  rename_i bestKey hkey
  split at h
  · cases h
  rename_i henough
  cases h
  obtain ⟨hvotes, hunknown⟩ := mem_eligibleBuckets (hbest.chosen _ hkey)
  refine ⟨hvotes, not_lt.1 henough, ?_, hunknown⟩
  split <;> simp_all

/-- An answer is counted where something was voted. -/
theorem responding_ne_zero {key : String}
    (hvotes : votesFor key advertisements ≠ []) :
    advertisements.countP (·.hash.isSome) ≠ 0 := by
  intro hzero
  apply hvotes
  rw [List.countP_eq_zero] at hzero
  have hnone : advertisements.filterMap PeerTipAdvertisement.vote = [] := by
    rw [List.filterMap_eq_nil_iff]
    intro adv hadv
    have hhash := hzero adv hadv
    rw [PeerTipAdvertisement.vote]
    simpa using hhash
  simp [votesFor, Tally.votesFor, hnone]

/-- Where a bucket that takes part has `q` votes, a bucket that takes part
wins. -/
theorem decideLoadQuorum_of_eligible {key : String} (hq : 1 ≤ q)
    (heligible : (key, votesFor key advertisements) ∈ eligibleBuckets
      (Tally.tally PeerTipAdvertisement.vote advertisements))
    (hvotes : q ≤ (votesFor key advertisements).length) :
    ∃ best, (best, votesFor best advertisements) ∈ eligibleBuckets
        (Tally.tally PeerTipAdvertisement.vote advertisements) ∧
      q ≤ (votesFor best advertisements).length ∧
      ∃ responding, decideLoadQuorum advertisements q = .ok (.ok
        (if best = unknownDocTallyKey then .newDoc else .tipHash) best
        (votesFor best advertisements) responding q) := by
  have hnonempty : votesFor key advertisements ≠ [] :=
    List.ne_nil_of_length_pos (hq.trans hvotes)
  have hbest := Tally.best_largest (eligibleBuckets
    (Tally.tally PeerTipAdvertisement.vote advertisements))
  have hlarge := hbest.largest _ heligible
  dsimp only at hlarge
  rcases hfirst : (Tally.largest (eligibleBuckets
      (Tally.tally PeerTipAdvertisement.vote advertisements))).1 with
    _ | best
  · rw [hbest.empty hfirst] at hlarge
    simp [hnonempty] at hlarge
  have hchosen := hbest.chosen _ hfirst
  have hbucket := (mem_eligibleBuckets hchosen).1
  dsimp only at hbucket
  rw [hbucket] at hchosen hlarge
  have hresponding := responding_ne_zero hnonempty
  have hadvertisements : advertisements ≠ [] := by
    rintro rfl
    exact hresponding rfl
  refine ⟨best, hchosen, hvotes.trans hlarge,
    advertisements.countP (·.hash.isSome), ?_⟩
  rw [decideLoadQuorum, if_neg (by omega), if_neg hadvertisements]
  simp only [if_neg hresponding, hfirst, hbucket,
    if_neg (not_lt.2 (hvotes.trans hlarge))]

/-- A hash with at least `q` votes wins when no other hash has as many. -/
theorem decideLoadQuorum_of_majority {key : String} (hq : 1 ≤ q)
    (hkey : key ≠ unknownDocTallyKey)
    (hvotes : q ≤ (votesFor key advertisements).length)
    (hothers : ∀ other, other ≠ unknownDocTallyKey → other ≠ key →
      (votesFor other advertisements).length < q) :
    ∃ responding, decideLoadQuorum advertisements q =
      .ok (.ok .tipHash key (votesFor key advertisements) responding q) := by
  have hnonempty : votesFor key advertisements ≠ [] :=
    List.ne_nil_of_length_pos (hq.trans hvotes)
  obtain ⟨best, heligible, hmany, responding, hdecision⟩ :=
    decideLoadQuorum_of_eligible hq
      (votesFor_mem_eligibleBuckets hkey hnonempty) hvotes
  have hunknown := (mem_eligibleBuckets heligible).2
  have hbest : best ≠ unknownDocTallyKey :=
    fun h => hnonempty (hunknown h key hkey)
  have hsame : best = key := by
    by_contra hne
    exact absurd (hothers best hbest hne) (not_lt.2 hmany)
  subst hsame
  rw [if_neg hbest] at hdecision
  exact ⟨responding, hdecision⟩

end Decision

/-! ## Faulty peers -/

section Faults

variable {P : Type} {peers : List P} {peerIdOf : P → String}
  {probeFn : P → ProbeOutcome} {documentPath : String}
  {config : LoadQuorumOrchestratorConfig}

/-- The peer votes under the key. -/
def VotesUnder (probeFn : P → ProbeOutcome) (key : String) (p : P) : Prop :=
  (contained (probeFn p)).map TipVote.key = some key

instance (key : String) : DecidablePred (VotesUnder probeFn key) :=
  fun _ => inferInstanceAs (Decidable (_ = _))

/-- The votes for a key come from the peers that vote under it. -/
theorem votesFor_advertise (key : String) (probed : List P) :
    votesFor key (advertise peerIdOf probeFn probed) =
      (probed.filter (VotesUnder probeFn key ·)).map peerIdOf := by
  induction probed with
  | nil => rfl
  | cons p probed ih =>
      have hcons : votesFor key (advertise peerIdOf probeFn (p :: probed)) =
          votesFor key (advertise peerIdOf probeFn [p]) ++
            votesFor key (advertise peerIdOf probeFn probed) :=
        Tally.votesFor_append _ key (advertise peerIdOf probeFn [p]) _
      rw [hcons, ih]
      rcases hvote : contained (probeFn p) with _ | v
      · simp [votesFor, Tally.votesFor, advertise, PeerTipAdvertisement.vote,
          VotesUnder, hvote]
      · by_cases hkey : v.key = key
        · simp [votesFor, Tally.votesFor, advertise,
            PeerTipAdvertisement.vote, VotesUnder, hvote, hkey]
        · simp [votesFor, Tally.votesFor, advertise,
            PeerTipAdvertisement.vote, VotesUnder, hvote, hkey]

theorem length_votesFor_advertise (key : String) (probed : List P) :
    (votesFor key (advertise peerIdOf probeFn probed)).length =
      probed.countP (VotesUnder probeFn key ·) := by
  rw [votesFor_advertise, List.length_map, List.countP_eq_length_filter]

/-- Only a vote for a hash is counted under the key of a hash. -/
theorem votesUnder_hash {key : String} (hkey : key ≠ unknownDocTallyKey)
    {p : P} (h : VotesUnder probeFn key p) :
    ∃ bytes, probeFn p = .ok (some (.hash bytes)) ∧
      tipsHashToHex bytes = key := by
  rw [VotesUnder] at h
  rcases hprobe : probeFn p with _ | _ | _ | bytes
  · simp [hprobe, contained] at h
  · simp [hprobe, contained] at h
  · exact ⟨_, rfl, by simpa [hprobe, contained, TipVote.key] using h⟩
  · simp [hprobe, contained, TipVote.key, hkey.symm] at h

/-- A peer that votes under the key of a new document does not know it. -/
theorem votesUnder_unknownDoc {p : P}
    (h : VotesUnder probeFn unknownDocTallyKey p) :
    probeFn p = .ok (some .unknownDoc) := by
  rw [VotesUnder] at h
  rcases hprobe : probeFn p with _ | _ | bytes | _
  · simp [hprobe, contained] at h
  · simp [hprobe, contained] at h
  · simp [hprobe, contained, TipVote.key, tipsHashToHex_ne] at h
  · rfl

/-- More voters than faulty peers include one that is not faulty. -/
theorem exists_honest_voter (probed : List P) (voted faulty : P → Prop)
    [DecidablePred voted] [DecidablePred faulty]
    (h : probed.countP (faulty ·) < probed.countP (voted ·)) :
    ∃ p ∈ probed, ¬ faulty p ∧ voted p := by
  by_contra hnone
  push Not at hnone
  have hle : probed.countP (voted ·) ≤ probed.countP (faulty ·) := by
    apply List.countP_mono_left
    intro p hp hvoted
    by_contra hfaulty
    exact hnone p hp (by simpa using hfaulty) (by simpa using hvoted)
  omega

/-- The peers that are not faulty are all others. -/
theorem countP_honest_add (probed : List P) (faulty : P → Prop)
    [DecidablePred faulty] :
    probed.countP (¬ faulty ·) + probed.countP (faulty ·) = probed.length := by
  rw [List.length_eq_countP_add_countP (faulty ·), Nat.add_comm]
  simp

/-- The threshold is a strict majority of at least two peers. -/
theorem requiredQ_eq (hq : config.q = none) {k : ℕ} (hk : 2 ≤ k) :
    config.requiredQ k = k / 2 + 1 := by
  have hzero : k ≠ 0 := by omega
  rw [LoadQuorumOrchestratorConfig.requiredQ, hq, Option.getD_none, effectiveQ,
    if_neg hzero, defaultQuorumQ, if_neg hzero, if_neg (by omega), if_neg (by omega),
    Int.toNat_natCast]

/-- No more peers are asked than there are. -/
theorem probeCount_le (config : LoadQuorumOrchestratorConfig)
    (peers : List P) : config.probeCount peers ≤ peers.length := by
  unfold LoadQuorumOrchestratorConfig.probeCount effectiveK
  split <;> omega

/-- A round that asks at least two peers follows the decision. -/
theorem runLoadQuorum_eq (henabled : config.enabled ≠ some false)
    (hvalid : validateLoadQuorumConfig config = .ok ())
    (hk : 2 ≤ config.probeCount peers) {decision : LoadQuorumDecision}
    (hdecision : decideLoadQuorum
      (advertise peerIdOf probeFn (peers.take (config.probeCount peers)))
      (config.requiredQ (config.probeCount peers)) = .ok decision) :
    runLoadQuorum peers peerIdOf probeFn documentPath config =
      narrow documentPath peerIdOf peers decision := by
  have hon : config.enabled.getD true ≠ false := by
    rcases h : config.enabled with _ | b
    · simp
    · rintro rfl
      exact henabled h
  rcases peers with _ | ⟨peer, peers⟩
  · have hle := probeCount_le config ([] : List P)
    simp at hle
    omega
  · rw [runLoadQuorum, if_neg hon, hvalid]
    dsimp only
    rw [if_neg (by omega), if_neg (by omega), if_neg (by omega), hdecision]

/-- The round of at least two peers never throws for its threshold. -/
theorem decideLoadQuorum_total (advertisements : List PeerTipAdvertisement)
    {q : ℕ} (hq : 1 ≤ q) :
    ∃ decision, decideLoadQuorum advertisements q = .ok decision := by
  rw [decideLoadQuorum, if_neg (by omega)]
  split
  · exact ⟨_, rfl⟩
  dsimp only
  split
  · exact ⟨_, rfl⟩
  split
  · exact ⟨_, rfl⟩
  split
  · exact ⟨_, rfl⟩
  · exact ⟨_, rfl⟩

/-- What a round guarantees about a cohort of peers: a hash that wins has a
vote of a peer that is not faulty, a hash on which all peers that are not
faulty agree wins and keeps them, and a new document needs a majority that
does not know it and nobody who does. -/
structure Tolerates (cohort : List P) (probeFn : P → ProbeOutcome)
    (faulty : P → Prop)
    (result : Except LoadQuorumError (LoadQuorumOrchestratorResult P)) :
    Prop where
  backed : ∀ narrowed key, result = .ok (.ok narrowed key) →
    ∃ p ∈ cohort, ¬ faulty p ∧ ∃ bytes,
      probeFn p = .ok (some (.hash bytes)) ∧ tipsHashToHex bytes = key
  agreed : ∀ bytes,
    (∀ p ∈ cohort, ¬ faulty p → probeFn p = .ok (some (.hash bytes))) →
      ∃ narrowed, result = .ok (.ok narrowed (tipsHashToHex bytes)) ∧
        ∀ p ∈ cohort, ¬ faulty p → p ∈ narrowed
  fresh : result = .ok .newDoc →
    (∀ p ∈ cohort, ∀ bytes, probeFn p ≠ .ok (some (.hash bytes))) ∧
      cohort.length / 2 + 1 ≤
        cohort.countP (probeFn · = .ok (some .unknownDoc))

section Cohort

variable {faulty : P → Prop} [DecidablePred faulty]
  {probed : List P} {decision : LoadQuorumDecision}

/-- The decision of a strict majority of the peers that were asked. -/
def MajorityDecision (peerIdOf : P → String) (probeFn : P → ProbeOutcome)
    (probed : List P) (decision : LoadQuorumDecision) : Prop :=
  decideLoadQuorum (advertise peerIdOf probeFn probed)
    (probed.length / 2 + 1) = .ok decision

/-- A hash that wins has a vote of a peer that is not faulty. -/
theorem MajorityDecision.backed
    (h : MajorityDecision peerIdOf probeFn probed decision)
    (hfaulty : probed.countP (faulty ·) ≤ (probed.length - 1) / 2)
    {narrowed : List P} {key : String}
    (hresult : narrow documentPath peerIdOf peers decision =
      .ok (.ok narrowed key)) :
    ∃ p ∈ probed, ¬ faulty p ∧ ∃ bytes,
      probeFn p = .ok (some (.hash bytes)) ∧ tipsHashToHex bytes = key := by
  rcases decision with ⟨_ | _, winning, ids, responding, q⟩ | _
  · rw [narrow] at hresult
    split at hresult
    · cases hresult
    cases hresult
    obtain ⟨hids, hmany, hkind, -⟩ := decideLoadQuorum_ok h
    rw [hids, length_votesFor_advertise] at hmany
    obtain ⟨p, hp, hhonest, hvoted⟩ := exists_honest_voter probed
      (VotesUnder probeFn key) faulty (by omega)
    exact ⟨p, hp, hhonest,
      votesUnder_hash (fun hkey => nomatch hkind.2 hkey) hvoted⟩
  · cases hresult
  · cases hresult

/-- A new document needs a majority that does not know it and nobody who
does. -/
theorem MajorityDecision.fresh
    (h : MajorityDecision peerIdOf probeFn probed decision)
    (hresult : narrow documentPath peerIdOf peers decision = .ok .newDoc) :
    (∀ p ∈ probed, ∀ bytes, probeFn p ≠ .ok (some (.hash bytes))) ∧
      probed.length / 2 + 1 ≤
        probed.countP (probeFn · = .ok (some .unknownDoc)) := by
  rcases decision with ⟨_ | _, winning, ids, responding, q⟩ | _
  · rw [narrow] at hresult
    split at hresult
    · cases hresult
    · cases hresult
  · obtain ⟨hids, hmany, hkind, hunknown⟩ := decideLoadQuorum_ok h
    have hkey := hkind.1 rfl
    rw [hids, length_votesFor_advertise] at hmany
    refine ⟨fun p hp bytes hprobe => ?_, hmany.trans ?_⟩
    · have hnone := hunknown hkey _ (tipsHashToHex_ne bytes)
      rw [votesFor_advertise, List.map_eq_nil_iff, List.filter_eq_nil_iff]
        at hnone
      apply hnone p hp
      simp [VotesUnder, hprobe, contained, TipVote.key]
    · apply List.countP_mono_left
      intro p _ hvoted
      rw [hkey] at hvoted
      simpa using votesUnder_unknownDoc (by simpa using hvoted)
  · cases hresult

/-- A hash on which all peers agree that are not faulty wins. -/
theorem majorityDecision_of_agreement (peerIdOf : P → String)
    (hfaulty : probed.countP (faulty ·) ≤ (probed.length - 1) / 2)
    (hpos : 1 ≤ probed.length) {bytes : Bytes}
    (hagree : ∀ p ∈ probed, ¬ faulty p →
      probeFn p = .ok (some (.hash bytes))) :
    ∃ responding, MajorityDecision peerIdOf probeFn probed
      (.ok .tipHash (tipsHashToHex bytes)
        ((probed.filter (VotesUnder probeFn (tipsHashToHex bytes) ·)).map
          peerIdOf) responding (probed.length / 2 + 1)) := by
  have hsum := countP_honest_add probed faulty
  have hvotes : probed.countP (¬ faulty ·) ≤
      probed.countP (VotesUnder probeFn (tipsHashToHex bytes) ·) := by
    apply List.countP_mono_left
    intro p hp hhonest
    have hprobe := hagree p hp (by simpa using hhonest)
    simp [VotesUnder, hprobe, contained, TipVote.key]
  have hothers : ∀ other, other ≠ unknownDocTallyKey →
      other ≠ tipsHashToHex bytes →
        probed.countP (VotesUnder probeFn other ·) ≤
          probed.countP (faulty ·) := by
    intro other _ hne
    apply List.countP_mono_left
    intro p hp hvoted
    by_contra hhonest
    have hprobe := hagree p hp (by simpa using hhonest)
    simp [VotesUnder, hprobe, contained, TipVote.key, hne.symm] at hvoted
  rw [← votesFor_advertise]
  refine decideLoadQuorum_of_majority (by omega) (tipsHashToHex_ne bytes)
    ?_ fun other hother hne => ?_
  · rw [length_votesFor_advertise]
    omega
  · have hle := hothers other hother hne
    rw [length_votesFor_advertise]
    omega

/-- The peers that voted for the winning hash are kept. -/
theorem narrow_of_agreement (hprobed : ∀ p ∈ probed, p ∈ peers)
    (hfaulty : probed.countP (faulty ·) ≤ (probed.length - 1) / 2)
    (hpos : 1 ≤ probed.length) {bytes : Bytes} {responding q : ℕ}
    (hagree : ∀ p ∈ probed, ¬ faulty p →
      probeFn p = .ok (some (.hash bytes))) :
    ∃ narrowed, narrow documentPath peerIdOf peers
        (.ok .tipHash (tipsHashToHex bytes)
          ((probed.filter (VotesUnder probeFn (tipsHashToHex bytes) ·)).map
            peerIdOf) responding q) =
        .ok (.ok narrowed (tipsHashToHex bytes)) ∧
      ∀ p ∈ probed, ¬ faulty p → p ∈ narrowed := by
  have hkept : ∀ p ∈ probed, ¬ faulty p → p ∈ peers.filter (peerIdOf · ∈
      (probed.filter (VotesUnder probeFn (tipsHashToHex bytes) ·)).map
        peerIdOf) := by
    intro p hp hhonest
    rw [List.mem_filter, decide_eq_true_eq]
    refine ⟨hprobed p hp, List.mem_map_of_mem (List.mem_filter.2 ⟨hp, ?_⟩)⟩
    simp [VotesUnder, hagree p hp hhonest, contained, TipVote.key]
  have hsum := countP_honest_add probed faulty
  obtain ⟨p, hp, hhonest⟩ := List.countP_pos_iff.1
    (show 0 < probed.countP (¬ faulty ·) by omega)
  have hmem := hkept p hp (by simpa using hhonest)
  refine ⟨_, ?_, hkept⟩
  rw [narrow, if_neg (List.length_pos_of_mem hmem).ne']

end Cohort

/-- A quorum round tolerates up to `⌊(k - 1) / 2⌋` faulty peers among the `k`
peers that it asks. -/
theorem runLoadQuorum_tolerates (peers : List P) (peerIdOf : P → String)
    (probeFn : P → ProbeOutcome) (documentPath : String)
    (config : LoadQuorumOrchestratorConfig)
    (henabled : config.enabled ≠ some false)
    (hvalid : validateLoadQuorumConfig config = .ok ())
    (hq : config.q = none) (hk : 2 ≤ config.probeCount peers)
    (faulty : P → Prop) [DecidablePred faulty]
    (hfaulty : (peers.take (config.probeCount peers)).countP (faulty ·) ≤
      (config.probeCount peers - 1) / 2) :
    Tolerates (peers.take (config.probeCount peers)) probeFn faulty
      (runLoadQuorum peers peerIdOf probeFn documentPath config) := by
  have hlength : (peers.take (config.probeCount peers)).length =
      config.probeCount peers := by
    rw [List.length_take]
    exact min_eq_left (probeCount_le config peers)
  have hround : ∀ decision, MajorityDecision peerIdOf probeFn
      (peers.take (config.probeCount peers)) decision →
        runLoadQuorum peers peerIdOf probeFn documentPath config =
          narrow documentPath peerIdOf peers decision := by
    intro decision hdecision
    apply runLoadQuorum_eq henabled hvalid hk
    rw [requiredQ_eq hq hk]
    rw [MajorityDecision, hlength] at hdecision
    exact hdecision
  have hmem : ∀ p ∈ peers.take (config.probeCount peers), p ∈ peers :=
    fun _ hp => List.mem_of_mem_take hp
  generalize peers.take (config.probeCount peers) = probed at *
  rw [← hlength] at hfaulty hk
  obtain ⟨decision, hdecision⟩ := decideLoadQuorum_total
    (advertise peerIdOf probeFn probed)
    (q := probed.length / 2 + 1) (by omega)
  refine ⟨fun narrowed key hresult => ?_, fun bytes hagree => ?_,
    fun hresult => ?_⟩
  · rw [hround decision hdecision] at hresult
    exact MajorityDecision.backed hdecision hfaulty hresult
  · obtain ⟨responding, hmajority⟩ := majorityDecision_of_agreement peerIdOf hfaulty
      (by omega) hagree
    rw [hround _ hmajority]
    exact narrow_of_agreement hmem hfaulty (by omega) hagree
  · rw [hround decision hdecision] at hresult
    exact MajorityDecision.fresh hdecision hresult

end Faults

/-- A configuration that sets nothing. -/
def defaultConfig : LoadQuorumOrchestratorConfig :=
  ⟨none, none, none, none, none⟩

/-- Peers that vote for the hash of their tips; the first two made theirs
up. -/
def twoForgers (peer : String) : ProbeOutcome :=
  if peer ∈ ["p1", "p2"] then .ok (some (.hash (List.replicate 32 0xff)))
  else .ok (some (.hash (List.replicate 32 0xab)))

/-- One forger among three peers does not get its hash through. -/
theorem runLoadQuorum_tolerates_one_of_three :
    Tolerates (["p2", "p3", "p4"].take 3) twoForgers (· = "p2")
      (runLoadQuorum ["p2", "p3", "p4"] id twoForgers "/doc"
        defaultConfig) :=
  runLoadQuorum_tolerates ["p2", "p3", "p4"] id twoForgers "/doc"
    defaultConfig (by decide) rfl rfl (by decide) (· = "p2") (by decide)

/-- Where fewer peers are asked than there are, a minority of all peers may
be the majority of those asked: two forgers of five peers win. -/
theorem runLoadQuorum_asks_only_three :
    ¬ ∀ (peers : List String) (peerIdOf : String → String)
      (probeFn : String → ProbeOutcome) (documentPath : String)
      (config : LoadQuorumOrchestratorConfig) (faulty : String → Bool),
      config.enabled ≠ some false → validateLoadQuorumConfig config = .ok () →
      config.q = none → (peers.map peerIdOf).Nodup → 2 ≤ peers.length →
      peers.countP faulty ≤ (peers.length - 1) / 2 →
      Tolerates peers probeFn (faulty · = true)
        (runLoadQuorum peers peerIdOf probeFn documentPath config) := by
  intro h
  have htolerates := h ["p1", "p2", "p3", "p4", "p5"] id twoForgers "/doc"
    defaultConfig (· ∈ ["p1", "p2"]) (by decide) rfl rfl (by decide)
    (by decide) (by decide)
  have hrun : runLoadQuorum ["p1", "p2", "p3", "p4", "p5"] id twoForgers
      "/doc" defaultConfig = .ok (.ok ["p1", "p2"]
        (tipsHashToHex (List.replicate 32 0xff))) := by
    decide +kernel
  obtain ⟨p, -, hhonest, bytes, hprobe, hkey⟩ := htolerates.backed _ _ hrun
  have hp : p ∉ ["p1", "p2"] := by simpa using hhonest
  rw [twoForgers, if_neg hp] at hprobe
  cases hprobe
  revert hkey
  decide +kernel

end Collabswarm.Document
