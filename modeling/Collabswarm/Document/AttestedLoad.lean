import Collabswarm.Document.LoadQuorum
import Collabswarm.Support.InsertionMap

/-!
# Loads that a quorum attested

`load` asks a quorum of peers for the hash of their tips and then the peers
that agreed, one after the other, for a snapshot and for the document.  Once a
hash has won, it does not take the document for a new one: it loads from one of
these peers, or it throws when all of them failed.
-/

namespace Collabswarm.Document

/-! ## Peers -/

/-- A remote address, in its canonical text. -/
abbrev Multiaddr := String

/-- The groups of the matches of `/\/p2p\/([^/]+)/g` behind a number of
characters that belong to the last match. -/
def p2pGroups : ℕ → List Char → List String
  | _, [] => []
  | skip + 1, _ :: rest => p2pGroups skip rest
  | 0, c :: rest =>
      let id := ((c :: rest).drop 5).takeWhile (· ≠ '/')
      if (c :: rest).take 5 = ['/', 'p', '2', 'p', '/'] ∧ id ≠ [] then
        String.ofList id :: p2pGroups (4 + id.length) rest
      else p2pGroups 0 rest

/-- The last `/p2p/` segment of an address. -/
def lastP2pSegment (peer : Multiaddr) : Option String :=
  (p2pGroups 0 peer.toList).getLast?

/-- `_peerIdOf`. -/
def peerIdOf (peer : Multiaddr) : String :=
  (lastP2pSegment peer).getD peer

example : peerIdOf "/ip4/1.2.3.4/p2p/relay/p2p-circuit/p2p/remote" =
    "remote" := by
  decide

/-- The peers with a preferred one in front, if it is among them. -/
def preferFirst (preferredId : Option String) (orderedPeers : List Multiaddr) :
    List Multiaddr :=
  match preferredId with
  | none => orderedPeers
  | some preferredId =>
      match orderedPeers.findIdx? fun p => lastP2pSegment p = some preferredId
      with
      | none => orderedPeers
      | some preferredIdx =>
          if 0 < preferredIdx then
            (orderedPeers[preferredIdx]?).toList ++
              orderedPeers.eraseIdx preferredIdx
          else orderedPeers

section Dedupe

variable {P : Type} (idOf : P → String)

/-- The loop of `dedupePeersByPeerId`. -/
def dedupeLoop : List String → List P → List P
  | _, [] => []
  | seen, peer :: peers =>
      if idOf peer ∈ seen then dedupeLoop seen peers
      else peer :: dedupeLoop (idOf peer :: seen) peers

/-- `dedupePeersByPeerId`. -/
def dedupePeersByPeerId (peers : List P) : List P :=
  dedupeLoop idOf [] peers

end Dedupe

/-! ## Attempts -/

/-- The protocols that a load tries with a peer. -/
inductive LoadProtocol where
  | snapshotLoad
  | docLoad
  deriving DecidableEq

/-- What a dial and `_sendLoadRequestAndSync` end with: `true`, `false`, a
`_QuorumBindCheckFailedError`, or another error. -/
inductive AttemptOutcome where
  | loaded
  | notLoaded
  | bindCheckFailed (advertisedHex : String)
  | failed (message : String)
  deriving DecidableEq

/-- An attempt at a peer. -/
abbrev LoadAttempt := Multiaddr × LoadProtocol

/-- The attempts so far, with `agreeingPeerBindFailures`. -/
structure LoadLoop where
  attempts : List LoadAttempt
  agreeingPeerBindFailures : InsertionMap String String

/-- What a load meets: the configuration of the swarm, the load request unless
it cannot be signed or serialized, and what the peers answer. -/
structure LoadSettings where
  documentPath : String
  config : LoadQuorumOrchestratorConfig
  compactionEnabled : Bool
  loadRequest : Except String Unit
  probeFn : Multiaddr → ProbeOutcome
  attempt : Option String → LoadAttempt → AttemptOutcome

/-- The reasons of a `LoadQuorumFailedError` that `load` itself throws. -/
inductive AgreeingPeersReason where
  | bindCheckFailedAllAgreeingPeers
  | agreeingPeersUnreachable
  deriving DecidableEq

/-- `LoadQuorumFailedError`, as `load` itself throws it. -/
structure AgreeingPeersError where
  documentPath : String
  reason : AgreeingPeersReason
  respondingCount : ℕ
  requiredQ : ℕ
  agreement : List (String × ℕ)
  agreeingPeerBindFailures : InsertionMap String String

/-- What `load` throws. -/
inductive LoadError where
  | request (message : String)
  | quorum (error : LoadQuorumError)
  | agreeingPeers (error : AgreeingPeersError)

/-- A run of `load`: what the quorum round returned, if there was one, the
attempts in their order, and the result. -/
structure LoadRun where
  quorumResult :
    Option (Except LoadQuorumError (LoadQuorumOrchestratorResult Multiaddr))
  attempts : List LoadAttempt
  result : Except LoadError Bool

namespace LoadLoop

variable (attempt : LoadAttempt → AttemptOutcome)

/-- An attempt is made. -/
def log (l : LoadLoop) (a : LoadAttempt) : LoadLoop :=
  { l with attempts := l.attempts ++ [a] }

/-- A peer served something else than it voted for. -/
def recordBindFailure (l : LoadLoop) (peer : Multiaddr)
    (advertisedHex : String) : LoadLoop :=
  { l with
    agreeingPeerBindFailures :=
      l.agreeingPeerBindFailures.set (peerIdOf peer) advertisedHex }

/-- The document load from a peer; the result says whether it succeeded. -/
def tryDocLoad (l : LoadLoop) (peer : Multiaddr) : LoadLoop × Bool :=
  let l := l.log (peer, .docLoad)
  match attempt (peer, .docLoad) with
  | .loaded => (l, true)
  | .bindCheckFailed advertisedHex =>
      (l.recordBindFailure peer advertisedHex, false)
  | _ => (l, false)

/-- One iteration of the loop over the peers. -/
def tryPeer (compactionEnabled : Bool) (l : LoadLoop) (peer : Multiaddr) :
    LoadLoop × Bool :=
  if compactionEnabled then
    let l := l.log (peer, .snapshotLoad)
    match attempt (peer, .snapshotLoad) with
    | .loaded => (l, true)
    | .bindCheckFailed advertisedHex =>
        (l.recordBindFailure peer advertisedHex, false)
    | _ => l.tryDocLoad attempt peer
  else l.tryDocLoad attempt peer

/-- The loop over the peers. -/
def tryPeers (compactionEnabled : Bool) :
    LoadLoop → List Multiaddr → LoadLoop × Bool
  | l, [] => (l, false)
  | l, peer :: peers =>
      match l.tryPeer attempt compactionEnabled peer with
      | (l, true) => (l, true)
      | (l, false) => tryPeers compactionEnabled l peers

end LoadLoop

namespace LoadSettings

/-- The configuration with its defaults, as `load` passes it on. -/
def quorumConfig (settings : LoadSettings) : LoadQuorumOrchestratorConfig where
  enabled := some (settings.config.enabled.getD true)
  k := some (settings.config.k.getD (.integer 3 "3"))
  q := settings.config.q
  timeoutMs := some (settings.config.timeoutMs.getD (.integer 5000 "5000"))
  allowSinglePeer := some (settings.config.allowSinglePeer.getD false)

/-- The part of `load` behind the quorum round. -/
def loadFrom (settings : LoadSettings)
    (quorumResult :
      Except LoadQuorumError (LoadQuorumOrchestratorResult Multiaddr))
    (winningHashHex : Option String) (orderedPeers : List Multiaddr) :
    LoadRun :=
  let (l, loaded) := LoadLoop.tryPeers (settings.attempt winningHashHex)
    settings.compactionEnabled ⟨[], .empty⟩ orderedPeers
  { quorumResult := some quorumResult
    attempts := l.attempts
    result :=
      if loaded then .ok true
      else
        match winningHashHex with
        | none => .ok false
        | some winningHashHex =>
            .error (.agreeingPeers
              { documentPath := settings.documentPath
                reason :=
                  if 0 < orderedPeers.length ∧
                      l.agreeingPeerBindFailures.size = orderedPeers.length then
                    .bindCheckFailedAllAgreeingPeers
                  else .agreeingPeersUnreachable
                respondingCount := 0
                requiredQ := 0
                agreement := [(winningHashHex, 0)]
                agreeingPeerBindFailures := l.agreeingPeerBindFailures }) }

/-- The peers that may be asked in the quorum round. -/
def quorumPeers (shuffledPeers : List Multiaddr)
    (preferredId : Option String) : List Multiaddr :=
  dedupePeersByPeerId peerIdOf (preferFirst preferredId shuffledPeers)

/-- `load`. -/
def load (settings : LoadSettings) (shuffledPeers : List Multiaddr)
    (preferredId : Option String) : LoadRun :=
  if shuffledPeers.isEmpty then ⟨none, [], .ok false⟩
  else
    match settings.loadRequest with
    | .error message => ⟨none, [], .error (.request message)⟩
    | .ok _ =>
        let quorumPeers := quorumPeers shuffledPeers preferredId
        let quorumResult := runLoadQuorum quorumPeers peerIdOf settings.probeFn
          settings.documentPath settings.quorumConfig
        match quorumResult with
        | .error error => ⟨some quorumResult, [], .error (.quorum error)⟩
        | .ok .skipped =>
            if settings.config.enabled.getD true && quorumPeers.isEmpty then
              ⟨some quorumResult, [], .ok false⟩
            else
              settings.loadFrom quorumResult none
                (preferFirst preferredId shuffledPeers)
        | .ok .newDoc => ⟨some quorumResult, [], .ok false⟩
        | .ok (.ok narrowedPeers winningHashHex) =>
            settings.loadFrom quorumResult (some winningHashHex) narrowedPeers

end LoadSettings

/-! ## The agreeing cohort -/

section Cohort

variable {P : Type} {idOf : P → String}

theorem dedupeLoop_fresh (peers : List P) :
    ∀ seen, ((dedupeLoop idOf seen peers).map idOf).Nodup ∧
      ∀ p ∈ dedupeLoop idOf seen peers, idOf p ∉ seen := by
  induction peers with
  | nil => exact fun seen => ⟨List.nodup_nil, by simp [dedupeLoop]⟩
  | cons peer peers ih =>
      intro seen
      rw [dedupeLoop]
      split
      · exact ih seen
      · rename_i hnew
        obtain ⟨hnodup, hfresh⟩ := ih (idOf peer :: seen)
        refine ⟨?_, ?_⟩
        · rw [List.map_cons, List.nodup_cons]
          refine ⟨?_, hnodup⟩
          intro hmem
          obtain ⟨p, hp, heq⟩ := List.mem_map.1 hmem
          exact hfresh p hp (heq ▸ List.mem_cons_self)
        · intro p hp
          rcases List.mem_cons.1 hp with rfl | hp
          · exact hnew
          · exact fun hmem => hfresh p hp (List.mem_cons_of_mem _ hmem)

/-- No two peers with one id are left. -/
theorem nodup_dedupePeersByPeerId (peers : List P) :
    ((dedupePeersByPeerId idOf peers).map idOf).Nodup :=
  (dedupeLoop_fresh peers []).1

theorem dedupePeersByPeerId_ne_nil {peers : List P} (h : peers ≠ []) :
    dedupePeersByPeerId idOf peers ≠ [] := by
  obtain ⟨peer, rest, rfl⟩ := List.exists_cons_of_ne_nil h
  simp [dedupePeersByPeerId, dedupeLoop]

variable {peers : List P} {probeFn : P → ProbeOutcome} {documentPath : String}
  {config : LoadQuorumOrchestratorConfig}

/-- The peers that were asked and voted for the hash. -/
def agreeingCohort (config : LoadQuorumOrchestratorConfig) (peers : List P)
    (probeFn : P → ProbeOutcome) (winningHashHex : String) : List P :=
  (peers.take (config.probeCount peers)).filter
    (VotesUnder probeFn winningHashHex ·)

/-- Where the ids differ, narrowing by the ids of voters keeps the voters. -/
theorem filter_votersIds (hnodup : (peers.map idOf).Nodup) (k : ℕ)
    (key : String) :
    peers.filter (idOf · ∈ ((peers.take k).filter
        (VotesUnder probeFn key ·)).map idOf) =
      (peers.take k).filter (VotesUnder probeFn key ·) := by
  have hmem : ∀ p ∈ peers, (idOf p ∈ ((peers.take k).filter
      (VotesUnder probeFn key ·)).map idOf ↔
        p ∈ peers.take k ∧ VotesUnder probeFn key p) := by
    intro p hp
    constructor
    · intro hid
      obtain ⟨p', hp', heq⟩ := List.mem_map.1 hid
      obtain ⟨htake, hvotes⟩ := List.mem_filter.1 hp'
      have hsame : p' = p := List.inj_on_of_nodup_map hnodup
        (List.mem_of_mem_take htake) hp heq
      subst hsame
      exact ⟨htake, by simpa using hvotes⟩
    · rintro ⟨htake, hvotes⟩
      exact List.mem_map_of_mem
        (List.mem_filter.2 ⟨htake, by simpa using hvotes⟩)
  have hdisjoint : ∀ p ∈ peers.take k, ∀ p' ∈ peers.drop k, p ≠ p' := by
    have hsplit : (peers.take k ++ peers.drop k).Nodup := by
      rw [List.take_append_drop]
      exact hnodup.of_map
    exact (List.nodup_append.1 hsplit).2.2
  have hfront : (peers.take k).filter (idOf · ∈ ((peers.take k).filter
      (VotesUnder probeFn key ·)).map idOf) =
        (peers.take k).filter (VotesUnder probeFn key ·) := by
    apply List.filter_congr
    intro p hp
    rw [decide_eq_decide, hmem p (List.mem_of_mem_take hp)]
    exact and_iff_right hp
  have hback : (peers.drop k).filter (idOf · ∈ ((peers.take k).filter
      (VotesUnder probeFn key ·)).map idOf) = [] := by
    rw [List.filter_eq_nil_iff]
    intro p hp
    rw [decide_eq_true_eq, hmem p (List.mem_of_mem_drop hp)]
    exact fun hvoter => hdisjoint p hvoter.1 p hp rfl
  conv_lhs => rw [← List.take_append_drop k peers]
  rw [List.filter_append]
  rw [List.take_append_drop, hfront, hback, List.append_nil]

/-- The only peer that is asked is the cohort where it votes for a hash. -/
theorem singlePeerLoad_ok {peer : P} (rest : List P)
    (hcount : config.probeCount (peer :: rest) = 1) {narrowed : List P}
    {winningHashHex : String}
    (h : singlePeerLoad documentPath probeFn peer =
      .ok (.ok narrowed winningHashHex)) :
    narrowed = agreeingCohort config (peer :: rest) probeFn winningHashHex ∧
      narrowed ≠ [] := by
  rw [singlePeerLoad] at h
  split at h
  · cases h
  · cases h
  rename_i bytes hprobe
  cases h
  have hvotes : VotesUnder probeFn (tipsHashToHex bytes) peer := by
    rw [VotesUnder, hprobe]
    rfl
  refine ⟨?_, List.cons_ne_nil _ _⟩
  rw [agreeingCohort, hcount, List.take_succ_cons, List.take_zero,
    List.filter_cons_of_pos (by simpa using hvotes), List.filter_nil]

/-- The peers that are left after a decision are the cohort. -/
theorem narrow_ok (hnodup : (peers.map idOf).Nodup) {k q : ℕ}
    {decision : LoadQuorumDecision}
    (hdecision : decideLoadQuorum (advertise idOf probeFn (peers.take k)) q =
      .ok decision)
    {narrowed : List P} {winningHashHex : String}
    (h : narrow documentPath idOf peers decision =
      .ok (.ok narrowed winningHashHex)) :
    narrowed =
        (peers.take k).filter (VotesUnder probeFn winningHashHex ·) ∧
      narrowed ≠ [] := by
  rcases decision with ⟨_ | _, winning, ids, responding, q⟩ | _
  · rw [narrow] at h
    split at h
    · cases h
    · rename_i hne
      cases h
      obtain ⟨hids, -⟩ := decideLoadQuorum_ok hdecision
      rw [votesFor_advertise] at hids
      refine ⟨?_, fun hnil => hne (by rw [hnil]; rfl)⟩
      rw [hids]
      exact filter_votersIds hnodup k winningHashHex
  · cases h
  · cases h

/-- A hash that wins leaves the peers that were asked and voted for it, and at
least one of them. -/
theorem runLoadQuorum_ok (hnodup : (peers.map idOf).Nodup)
    {narrowed : List P} {winningHashHex : String}
    (h : runLoadQuorum peers idOf probeFn documentPath config =
      .ok (.ok narrowed winningHashHex)) :
    narrowed = agreeingCohort config peers probeFn winningHashHex ∧
      narrowed ≠ [] := by
  rw [runLoadQuorum] at h
  split at h
  · cases h
  split at h
  · cases h
  dsimp only at h
  split at h
  · cases h
  split at h
  · cases h
  split at h
  · cases h
  rename_i peer rest _ _
  split at h
  · rename_i hone
    exact singlePeerLoad_ok rest hone h
  split at h
  · cases h
  rename_i decision hdecision
  exact narrow_ok hnodup hdecision h

/-- A round with peers is not skipped where the gate is on and the
configuration is valid. -/
theorem runLoadQuorum_ne_skipped (henabled : config.enabled ≠ some false)
    (hcount : 1 ≤ config.probeCount peers) :
    runLoadQuorum peers idOf probeFn documentPath config ≠ .ok .skipped := by
  intro h
  rw [runLoadQuorum] at h
  split at h
  · rename_i hoff
    rcases hflag : config.enabled with _ | b
    · simp [hflag] at hoff
    · rw [hflag, Option.getD_some] at hoff
      exact henabled (by rw [hflag, hoff])
  split at h
  · cases h
  dsimp only at h
  rw [if_neg (by omega)] at h
  split at h
  · cases h
  split at h
  · have hle := probeCount_le config ([] : List P)
    rw [List.length_nil] at hle
    omega
  split at h
  · rw [singlePeerLoad] at h
    split at h
    · cases h
    · cases h
    · cases h
  split at h
  · cases h
  rename_i decision _
  rcases decision with ⟨_ | _, winning, ids, responding, q⟩ | _
  · rw [narrow] at h
    split at h
    · cases h
    · cases h
  · cases h
  · cases h

end Cohort

/-! ## The loop over the peers -/

/-- The hash of a bind failure, if the attempt ended with one. -/
def AttemptOutcome.bindFailure : AttemptOutcome → Option String
  | .bindCheckFailed advertisedHex => some advertisedHex
  | _ => none

namespace LoadLoop

variable (attempt : LoadAttempt → AttemptOutcome) (compactionEnabled : Bool)

/-- The attempts at a peer. -/
def attemptsAt (peer : Multiaddr) : List LoadAttempt :=
  if compactionEnabled then
    match attempt (peer, .snapshotLoad) with
    | .loaded => [(peer, .snapshotLoad)]
    | .bindCheckFailed _ => [(peer, .snapshotLoad)]
    | _ => [(peer, .snapshotLoad), (peer, .docLoad)]
  else [(peer, .docLoad)]

/-- The hash that a peer was found to serve instead, if it was. -/
def bindFailureAt (peer : Multiaddr) : Option String :=
  (attemptsAt attempt compactionEnabled peer).findSome?
    fun a => (attempt a).bindFailure

/-- One of the attempts at a peer succeeded. -/
def loadedAt (peer : Multiaddr) : Bool :=
  (attemptsAt attempt compactionEnabled peer).any (attempt · = .loaded)

/-- The state of the loop after the attempts at a peer. -/
def afterPeer (l : LoadLoop) (peer : Multiaddr) : LoadLoop where
  attempts := l.attempts ++ attemptsAt attempt compactionEnabled peer
  agreeingPeerBindFailures :=
    (bindFailureAt attempt compactionEnabled peer).elim
      l.agreeingPeerBindFailures
      (l.agreeingPeerBindFailures.set (peerIdOf peer))

/-- The peers up to the first that serves the document. -/
def askedPeers : List Multiaddr → List Multiaddr
  | [] => []
  | peer :: peers =>
      if loadedAt attempt compactionEnabled peer then [peer]
      else peer :: askedPeers peers

variable {attempt compactionEnabled}

/-- The document load makes one attempt. -/
theorem tryDocLoad_eq (l : LoadLoop) (peer : Multiaddr) :
    l.tryDocLoad attempt peer =
      (⟨l.attempts ++ [(peer, .docLoad)],
        ((attempt (peer, .docLoad)).bindFailure).elim
          l.agreeingPeerBindFailures
          (l.agreeingPeerBindFailures.set (peerIdOf peer))⟩,
        decide (attempt (peer, .docLoad) = .loaded)) := by
  rw [tryDocLoad]
  rcases houtcome : attempt (peer, .docLoad) with _ | _ | hex | message
  · rfl
  · rfl
  · rfl
  · rfl

/-- An iteration makes the attempts at its peer and records its bind
failure. -/
theorem tryPeer_eq (l : LoadLoop) (peer : Multiaddr) :
    l.tryPeer attempt compactionEnabled peer =
      (l.afterPeer attempt compactionEnabled peer,
        loadedAt attempt compactionEnabled peer) := by
  rw [afterPeer]
  rcases compactionEnabled with _ | _
  · rw [tryPeer, if_neg Bool.false_ne_true, tryDocLoad_eq]
    simp [bindFailureAt, loadedAt, attemptsAt]
  · rw [tryPeer, if_pos rfl]
    rcases houtcome : attempt (peer, .snapshotLoad) with _ | _ | hex | message
    · simp [bindFailureAt, loadedAt, attemptsAt, houtcome, log,
        AttemptOutcome.bindFailure]
    · simp [tryDocLoad_eq, bindFailureAt, loadedAt, attemptsAt, houtcome, log,
        AttemptOutcome.bindFailure]
    · simp [bindFailureAt, loadedAt, attemptsAt, houtcome, log,
        AttemptOutcome.bindFailure, recordBindFailure]
    · simp [tryDocLoad_eq, bindFailureAt, loadedAt, attemptsAt, houtcome, log,
        AttemptOutcome.bindFailure]

theorem fst_of_mem_attemptsAt {peer : Multiaddr} {a : LoadAttempt}
    (ha : a ∈ attemptsAt attempt compactionEnabled peer) : a.1 = peer := by
  rw [attemptsAt] at ha
  split at ha
  · split at ha <;> simp at ha <;> grind
  · simp at ha
    rw [ha]

/-- Nothing follows a bind failure at a peer. -/
theorem pairwise_attemptsAt (peer : Multiaddr) :
    (attemptsAt attempt compactionEnabled peer).Pairwise
      fun a _ => (attempt a).bindFailure = none := by
  rw [attemptsAt]
  split
  · rcases houtcome : attempt (peer, .snapshotLoad) with _ | _ | hex | message
    · exact List.pairwise_singleton _ _
    · exact List.pairwise_pair.2 (by rw [houtcome]; rfl)
    · exact List.pairwise_singleton _ _
    · exact List.pairwise_pair.2 (by rw [houtcome]; rfl)
  · exact List.pairwise_singleton _ _

theorem isSome_bindFailureAt {peer : Multiaddr} :
    (bindFailureAt attempt compactionEnabled peer).isSome ↔
      ∃ a ∈ attemptsAt attempt compactionEnabled peer,
        (attempt a).bindFailure.isSome := by
  rw [bindFailureAt, List.findSome?_isSome_iff]

theorem loadedAt_iff {peer : Multiaddr} :
    loadedAt attempt compactionEnabled peer = true ↔
      ∃ a ∈ attemptsAt attempt compactionEnabled peer, attempt a = .loaded := by
  simp [loadedAt]

/-- A peer that neither serves the document nor fails the bind check is asked
for the document by the document load as well. -/
theorem docLoad_mem_attemptsAt {peer : Multiaddr}
    (hloaded : loadedAt attempt compactionEnabled peer = false)
    (hbound : bindFailureAt attempt compactionEnabled peer = none) :
    (peer, .docLoad) ∈ attemptsAt attempt compactionEnabled peer := by
  rcases compactionEnabled with _ | _
  · simp [attemptsAt]
  · rcases houtcome : attempt (peer, .snapshotLoad) with _ | _ | hex | message
    · simp [loadedAt, attemptsAt, houtcome] at hloaded
    · simp [attemptsAt, houtcome]
    · simp [bindFailureAt, attemptsAt, houtcome,
        AttemptOutcome.bindFailure] at hbound
    · simp [attemptsAt, houtcome]

theorem tryPeers_cons (l : LoadLoop) (peer : Multiaddr)
    (peers : List Multiaddr) :
    tryPeers attempt compactionEnabled l (peer :: peers) =
      if loadedAt attempt compactionEnabled peer then
        (l.afterPeer attempt compactionEnabled peer, true)
      else
        tryPeers attempt compactionEnabled
          (l.afterPeer attempt compactionEnabled peer) peers := by
  rw [tryPeers, tryPeer_eq]
  rcases loadedAt attempt compactionEnabled peer with _ | _
  · rfl
  · rfl

/-- The loop makes the attempts at the peers that it asks, in their order. -/
theorem attempts_tryPeers (peers : List Multiaddr) (l : LoadLoop) :
    (tryPeers attempt compactionEnabled l peers).1.attempts =
      l.attempts ++ (askedPeers attempt compactionEnabled peers).flatMap
        (attemptsAt attempt compactionEnabled) := by
  induction peers generalizing l with
  | nil => simp [tryPeers, askedPeers]
  | cons peer peers ih =>
      rw [tryPeers_cons, askedPeers]
      split
      · simp [afterPeer]
      · rw [ih, afterPeer, List.flatMap_cons, List.append_assoc]

/-- The loop succeeds where a peer serves the document. -/
theorem loaded_tryPeers (peers : List Multiaddr) (l : LoadLoop) :
    (tryPeers attempt compactionEnabled l peers).2 =
      peers.any (loadedAt attempt compactionEnabled) := by
  induction peers generalizing l with
  | nil => rfl
  | cons peer peers ih =>
      rw [tryPeers_cons, List.any_cons]
      split
      · rename_i hloaded
        rw [hloaded, Bool.true_or]
      · rename_i hloaded
        rw [ih, Bool.eq_false_of_not_eq_true hloaded, Bool.false_or]

/-- The bind failures at the peers that are asked are counted where their ids
differ. -/
theorem size_tryPeers (peers : List Multiaddr) (l : LoadLoop)
    (hnodup : (peers.map peerIdOf).Nodup)
    (hfresh : ∀ p ∈ peers, peerIdOf p ∉ l.agreeingPeerBindFailures.keys) :
    (tryPeers attempt compactionEnabled l
        peers).1.agreeingPeerBindFailures.size =
      l.agreeingPeerBindFailures.size +
        (askedPeers attempt compactionEnabled peers).countP
          fun p => (bindFailureAt attempt compactionEnabled p).isSome := by
  induction peers generalizing l with
  | nil => simp [tryPeers, askedPeers]
  | cons peer peers ih =>
      rw [List.map_cons, List.nodup_cons] at hnodup
      have hnew := hfresh peer List.mem_cons_self
      have hstep : (l.afterPeer attempt compactionEnabled
          peer).agreeingPeerBindFailures.size =
          l.agreeingPeerBindFailures.size +
            if (bindFailureAt attempt compactionEnabled peer).isSome then 1
            else 0 := by
        rw [afterPeer]
        rcases bindFailureAt attempt compactionEnabled peer with _ | hex
        · rfl
        · rw [Option.elim_some, ← InsertionMap.length_keys,
            InsertionMap.keys_set_of_fresh _ _ hnew, List.length_append,
            InsertionMap.length_keys]
          rfl
      have hkept : ∀ p ∈ peers, peerIdOf p ∉ (l.afterPeer attempt
          compactionEnabled peer).agreeingPeerBindFailures.keys := by
        intro p hp
        have hold := hfresh p (List.mem_cons_of_mem _ hp)
        rw [afterPeer]
        rcases bindFailureAt attempt compactionEnabled peer with _ | hex
        · exact hold
        · rw [Option.elim_some, InsertionMap.mem_keys_set, not_or]
          refine ⟨?_, hold⟩
          intro heq
          exact hnodup.1 (heq ▸ List.mem_map_of_mem hp)
      rw [tryPeers_cons, askedPeers]
      split
      · rw [hstep, List.countP_singleton]
      · rw [ih _ hnodup.2 hkept, hstep, List.countP_cons]
        omega

theorem askedPeers_sublist (peers : List Multiaddr) :
    (askedPeers attempt compactionEnabled peers).Sublist peers := by
  induction peers with
  | nil => exact List.Sublist.refl _
  | cons peer peers ih =>
      rw [askedPeers]
      split
      · exact List.singleton_sublist.2 List.mem_cons_self
      · exact ih.cons_cons peer

/-- Where no peer serves the document, all are asked. -/
theorem askedPeers_of_not_loaded {peers : List Multiaddr}
    (h : peers.any (loadedAt attempt compactionEnabled) = false) :
    askedPeers attempt compactionEnabled peers = peers := by
  induction peers with
  | nil => rfl
  | cons peer peers ih =>
      rw [List.any_cons, Bool.or_eq_false_iff] at h
      rw [askedPeers, if_neg (by simp [h.1]), ih h.2]

/-- A peer that serves the document is among those that are asked, if there is
one. -/
theorem any_askedPeers (peers : List Multiaddr) :
    (askedPeers attempt compactionEnabled peers).any
        (loadedAt attempt compactionEnabled) =
      peers.any (loadedAt attempt compactionEnabled) := by
  induction peers with
  | nil => rfl
  | cons peer peers ih =>
      rw [askedPeers, List.any_cons]
      split
      · rename_i hloaded
        rw [List.any_cons, hloaded, Bool.true_or, Bool.true_or]
      · rw [List.any_cons, ih]

/-- No attempt at a peer follows its bind failure, where the ids of the peers
differ. -/
theorem pairwise_attempts {peers : List Multiaddr}
    (hnodup : (peers.map peerIdOf).Nodup) :
    (peers.flatMap (attemptsAt attempt compactionEnabled)).Pairwise
      fun a b => (attempt a).bindFailure.isSome →
        peerIdOf b.1 ≠ peerIdOf a.1 := by
  rw [List.pairwise_flatMap]
  constructor
  · intro peer _
    apply (pairwise_attemptsAt peer).imp
    intro a b hnone hsome
    rw [hnone] at hsome
    cases hsome
  · have hids : peers.Pairwise fun p q => peerIdOf p ≠ peerIdOf q :=
      List.pairwise_map.1 hnodup
    apply hids.imp
    intro p q hne a ha b hb _
    rw [fst_of_mem_attemptsAt ha, fst_of_mem_attemptsAt hb]
    exact hne.symm

end LoadLoop

/-! ## The result -/

/-- What a load guarantees once the peers of a cohort have agreed on a hash:
it asks only these, and none again whose answer did not hash to it; it
succeeds where an attempt does; otherwise it has tried all of them, and it
throws, with a reason that says whether all of them served something else. -/
structure NeverForks (attempt : LoadAttempt → AttemptOutcome)
    (cohort : List Multiaddr) (run : LoadRun) : Prop where
  cohort_only : ∀ a ∈ run.attempts, a.1 ∈ cohort
  once : run.attempts.Pairwise fun a b =>
    (attempt a).bindFailure.isSome → peerIdOf b.1 ≠ peerIdOf a.1
  loaded : run.result = .ok true ↔ ∃ a ∈ run.attempts, attempt a = .loaded
  exhausted : run.result ≠ .ok true → ∀ p ∈ cohort,
    (p, .docLoad) ∈ run.attempts ∨
      ∃ a ∈ run.attempts, a.1 = p ∧ (attempt a).bindFailure.isSome
  thrown : run.result ≠ .ok true → ∃ error,
    run.result = .error (.agreeingPeers error) ∧
      (error.reason = .bindCheckFailedAllAgreeingPeers ↔
        ∀ p ∈ cohort, ∃ a ∈ run.attempts, a.1 = p ∧
          (attempt a).bindFailure.isSome)

section Settings

open LoadLoop

variable (settings : LoadSettings)

/-- A load from some peers makes the attempts at those that it asks. -/
theorem attempts_loadFrom (quorumResult :
      Except LoadQuorumError (LoadQuorumOrchestratorResult Multiaddr))
    (winningHashHex : Option String) (orderedPeers : List Multiaddr) :
    (settings.loadFrom quorumResult winningHashHex orderedPeers).attempts =
      (askedPeers (settings.attempt winningHashHex) settings.compactionEnabled
        orderedPeers).flatMap
          (attemptsAt (settings.attempt winningHashHex)
            settings.compactionEnabled) :=
  attempts_tryPeers orderedPeers ⟨[], .empty⟩

/-- A load from some peers succeeds where one of its attempts does. -/
theorem exists_loaded_iff (quorumResult :
      Except LoadQuorumError (LoadQuorumOrchestratorResult Multiaddr))
    (winningHashHex : Option String) (orderedPeers : List Multiaddr) :
    (∃ a ∈ (settings.loadFrom quorumResult winningHashHex
        orderedPeers).attempts,
      settings.attempt winningHashHex a = .loaded) ↔
      orderedPeers.any (loadedAt (settings.attempt winningHashHex)
        settings.compactionEnabled) = true := by
  rw [← any_askedPeers, List.any_eq_true, attempts_loadFrom]
  constructor
  · rintro ⟨a, ha, hloaded⟩
    obtain ⟨p, hp, hat⟩ := List.mem_flatMap.1 ha
    exact ⟨p, hp, loadedAt_iff.2 ⟨a, hat, hloaded⟩⟩
  · rintro ⟨p, hp, hat⟩
    obtain ⟨a, ha, hloaded⟩ := loadedAt_iff.1 hat
    exact ⟨a, List.mem_flatMap.2 ⟨p, hp, ha⟩, hloaded⟩

/-- A load from some peers that succeeds. -/
theorem result_loadFrom_of_loaded (quorumResult :
      Except LoadQuorumError (LoadQuorumOrchestratorResult Multiaddr))
    {winningHashHex : Option String} {orderedPeers : List Multiaddr}
    (h : orderedPeers.any (loadedAt (settings.attempt winningHashHex)
      settings.compactionEnabled) = true) :
    (settings.loadFrom quorumResult winningHashHex orderedPeers).result =
      .ok true := by
  rw [← loaded_tryPeers orderedPeers ⟨[], .empty⟩] at h
  exact if_pos h

/-- A load from the peers of a cohort that fails throws, and it gives the
reason of a bind failure where all peers have one. -/
theorem result_loadFrom_of_not_loaded (quorumResult :
      Except LoadQuorumError (LoadQuorumOrchestratorResult Multiaddr))
    {winningHashHex : String} {cohort : List Multiaddr}
    (hnodup : (cohort.map peerIdOf).Nodup) (hne : cohort ≠ [])
    (h : cohort.any (loadedAt (settings.attempt (some winningHashHex))
      settings.compactionEnabled) = false) :
    ∃ error, (settings.loadFrom quorumResult (some winningHashHex)
        cohort).result = .error (.agreeingPeers error) ∧
      (error.reason = .bindCheckFailedAllAgreeingPeers ↔
        ∀ p ∈ cohort, (bindFailureAt (settings.attempt (some winningHashHex))
          settings.compactionEnabled p).isSome) := by
  have hsize := @size_tryPeers (settings.attempt (some winningHashHex))
    settings.compactionEnabled cohort ⟨[], .empty⟩ hnodup
    (fun _ _ => List.not_mem_nil)
  rw [askedPeers_of_not_loaded h] at hsize
  rw [← loaded_tryPeers cohort ⟨[], .empty⟩] at h
  have hpos := List.length_pos_of_ne_nil hne
  refine ⟨_, if_neg (by simp [h]), ?_⟩
  dsimp only
  rw [hsize, ← List.countP_eq_length]
  have hempty : (InsertionMap.empty : InsertionMap String String).size = 0 :=
    rfl
  rw [hempty, Nat.zero_add]
  constructor
  · intro hreason
    split at hreason
    · rename_i hall
      exact hall.2
    · cases hreason
  · exact fun hall => if_pos ⟨hpos, hall⟩

/-- A load from some peers asks no others. -/
theorem attempts_loadFrom_subset (quorumResult :
      Except LoadQuorumError (LoadQuorumOrchestratorResult Multiaddr))
    (winningHashHex : Option String) (orderedPeers : List Multiaddr)
    {a : LoadAttempt}
    (ha : a ∈ (settings.loadFrom quorumResult winningHashHex
      orderedPeers).attempts) : a.1 ∈ orderedPeers := by
  rw [attempts_loadFrom] at ha
  obtain ⟨p, hp, hat⟩ := List.mem_flatMap.1 ha
  rw [fst_of_mem_attemptsAt hat]
  exact (askedPeers_sublist orderedPeers).subset hp

/-- Where no peer serves the document, a bind failure of a peer is one of the
attempts. -/
theorem isSome_bindFailureAt_iff (quorumResult :
      Except LoadQuorumError (LoadQuorumOrchestratorResult Multiaddr))
    {winningHashHex : Option String} {orderedPeers : List Multiaddr}
    (hfailed : orderedPeers.any (loadedAt (settings.attempt winningHashHex)
      settings.compactionEnabled) = false)
    {p : Multiaddr} (hp : p ∈ orderedPeers) :
    (bindFailureAt (settings.attempt winningHashHex)
        settings.compactionEnabled p).isSome ↔
      ∃ a ∈ (settings.loadFrom quorumResult winningHashHex
          orderedPeers).attempts,
        a.1 = p ∧ (settings.attempt winningHashHex a).bindFailure.isSome := by
  rw [attempts_loadFrom, askedPeers_of_not_loaded hfailed,
    isSome_bindFailureAt]
  constructor
  · rintro ⟨a, ha, hbind⟩
    exact ⟨a, List.mem_flatMap.2 ⟨p, hp, ha⟩, fst_of_mem_attemptsAt ha, hbind⟩
  · rintro ⟨a, ha, hpeer, hbind⟩
    obtain ⟨q, _, hat⟩ := List.mem_flatMap.1 ha
    rw [fst_of_mem_attemptsAt hat] at hpeer
    exact ⟨a, hpeer ▸ hat, hbind⟩

/-- A load from the peers of a cohort never takes the document for new. -/
theorem loadFrom_neverForks (quorumResult :
      Except LoadQuorumError (LoadQuorumOrchestratorResult Multiaddr))
    {winningHashHex : String} {cohort : List Multiaddr}
    (hnodup : (cohort.map peerIdOf).Nodup) (hne : cohort ≠ []) :
    NeverForks (settings.attempt (some winningHashHex)) cohort
      (settings.loadFrom quorumResult (some winningHashHex) cohort) := by
  have hmade := attempts_loadFrom settings quorumResult (some winningHashHex)
    cohort
  have hexists := exists_loaded_iff settings quorumResult (some winningHashHex)
    cohort
  have hasked : ((askedPeers (settings.attempt (some winningHashHex))
      settings.compactionEnabled cohort).map peerIdOf).Nodup :=
    hnodup.sublist ((askedPeers_sublist cohort).map peerIdOf)
  have honly : ∀ a ∈ (settings.loadFrom quorumResult (some winningHashHex)
      cohort).attempts, a.1 ∈ cohort :=
    fun a ha => attempts_loadFrom_subset settings _ _ _ ha
  have honce := @pairwise_attempts (settings.attempt (some winningHashHex))
    settings.compactionEnabled _ hasked
  rw [← hmade] at honce
  rcases hserved : cohort.any (loadedAt (settings.attempt (some winningHashHex))
    settings.compactionEnabled) with _ | _
  · obtain ⟨error, hresult, hreason⟩ :=
      result_loadFrom_of_not_loaded settings quorumResult hnodup hne hserved
    refine ⟨honly, honce, ?_, ?_, ?_⟩
    · rw [hexists, hserved, hresult]
      exact ⟨fun h => (nomatch h), fun h => (nomatch h)⟩
    · intro _ p hp
      rcases hbound : bindFailureAt (settings.attempt (some winningHashHex))
        settings.compactionEnabled p with _ | hex
      · have hunserved : loadedAt (settings.attempt (some winningHashHex))
            settings.compactionEnabled p = false :=
          Bool.eq_false_of_not_eq_true (List.any_eq_false.1 hserved p hp)
        left
        rw [hmade, askedPeers_of_not_loaded hserved]
        exact List.mem_flatMap.2
          ⟨p, hp, docLoad_mem_attemptsAt hunserved hbound⟩
      · right
        exact (isSome_bindFailureAt_iff settings quorumResult hserved hp).1
          (by rw [hbound]; rfl)
    · refine fun _ => ⟨error, hresult, hreason.trans ?_⟩
      exact forall₂_congr fun p hp =>
        isSome_bindFailureAt_iff settings quorumResult hserved hp
  · have hresult := result_loadFrom_of_loaded settings quorumResult hserved
    refine ⟨honly, honce, ?_, ?_, ?_⟩
    · rw [hexists, hserved, hresult]
      exact iff_of_true rfl rfl
    · exact fun hne => absurd hresult hne
    · exact fun hne => absurd hresult hne

/-- The number of a valid configuration is a positive integer. -/
theorem checkPositiveInt_ok {name : String} {value : ConfigNumber}
    (h : checkPositiveInt name (some value) = .ok ()) :
    ∃ n text, value = .integer n text ∧ 1 ≤ n := by
  rcases value with ⟨n, text⟩ | ⟨floor, text⟩ | text
  · refine ⟨n, text, rfl, ?_⟩
    by_contra hlt
    rw [checkPositiveInt] at h
    simp only [if_pos (not_le.1 hlt)] at h
    cases h
  · cases h
  · cases h

/-- A valid configuration asks at least one peer, if there is one. -/
theorem one_le_probeCount {peers : List Multiaddr} (hne : peers ≠ [])
    (hvalid : validateLoadQuorumConfig settings.config = .ok ()) :
    1 ≤ settings.quorumConfig.probeCount peers := by
  have hpos := List.length_pos_of_ne_nil hne
  have hchecked : checkPositiveInt "loadQuorumK" settings.config.k = .ok () := by
    rw [validateLoadQuorumConfig] at hvalid
    rcases hcheck : checkPositiveInt "loadQuorumK" settings.config.k with _ | _
    · rw [hcheck] at hvalid
      cases hvalid
    · rfl
  have hinteger : ∃ n text,
      settings.quorumConfig.configuredK = .integer n text ∧ 1 ≤ n := by
    rcases hk : settings.config.k with _ | value
    · exact ⟨3, "3", by
        simp [LoadQuorumOrchestratorConfig.configuredK,
          LoadSettings.quorumConfig, hk], by omega⟩
    · rw [hk] at hchecked
      obtain ⟨n, text, rfl, hn⟩ := checkPositiveInt_ok hchecked
      exact ⟨n, text, by
        simp [LoadQuorumOrchestratorConfig.configuredK,
          LoadSettings.quorumConfig, hk], hn⟩
  obtain ⟨n, text, hk, hn⟩ := hinteger
  rw [LoadQuorumOrchestratorConfig.probeCount, hk, effectiveK]
  omega

theorem preferFirst_ne_nil (preferredId : Option String)
    {orderedPeers : List Multiaddr} (h : orderedPeers ≠ []) :
    preferFirst preferredId orderedPeers ≠ [] := by
  unfold preferFirst
  split
  · exact h
  split
  · exact h
  rename_i preferredIdx hfound
  split
  · have hlt := (List.findIdx?_eq_some_iff_getElem.1 hfound).choose
    rw [List.getElem?_eq_getElem hlt]
    exact List.cons_ne_nil _ _
  · exact h

/-- The gate stays on in the configuration that `load` passes on. -/
theorem enabled_quorumConfig (henabled : settings.config.enabled ≠ some false) :
    settings.quorumConfig.enabled ≠ some false := by
  intro hoff
  rcases h : settings.config.enabled with _ | _ | _
  · simp [LoadSettings.quorumConfig, h] at hoff
  · exact henabled h
  · simp [LoadSettings.quorumConfig, h] at hoff

/-- A load never takes a document for new that a quorum attested. -/
theorem load_neverForks (henabled : settings.config.enabled ≠ some false)
    (hvalid : validateLoadQuorumConfig settings.config = .ok ())
    (shuffledPeers : List Multiaddr) (preferredId : Option String) :
    (∀ narrowed winningHashHex,
      (settings.load shuffledPeers preferredId).quorumResult =
          some (.ok (.ok narrowed winningHashHex)) →
        NeverForks (settings.attempt (some winningHashHex))
          (agreeingCohort settings.quorumConfig
            (LoadSettings.quorumPeers shuffledPeers preferredId)
            settings.probeFn winningHashHex)
          (settings.load shuffledPeers preferredId)) ∧
      ((settings.load shuffledPeers preferredId).result = .ok false →
        shuffledPeers = [] ∨
          (settings.load shuffledPeers preferredId).quorumResult =
            some (.ok .newDoc)) := by
  rcases shuffledPeers with _ | ⟨peer, rest⟩
  · exact ⟨fun _ _ h => (nomatch h), fun _ => .inl rfl⟩
  have hpreferred : preferFirst preferredId (peer :: rest) ≠ [] :=
    preferFirst_ne_nil preferredId (List.cons_ne_nil peer rest)
  have hne : LoadSettings.quorumPeers (peer :: rest) preferredId ≠ [] :=
    dedupePeersByPeerId_ne_nil hpreferred
  have hnodup : ((LoadSettings.quorumPeers (peer :: rest) preferredId).map
      peerIdOf).Nodup := nodup_dedupePeersByPeerId _
  have hskipped : runLoadQuorum (LoadSettings.quorumPeers (peer :: rest)
      preferredId) peerIdOf settings.probeFn settings.documentPath
      settings.quorumConfig ≠ .ok .skipped :=
    runLoadQuorum_ne_skipped (enabled_quorumConfig settings henabled)
      (one_le_probeCount settings hne hvalid)
  rw [LoadSettings.load, if_neg (by simp)]
  rcases settings.loadRequest with message | _
  · exact ⟨fun _ _ h => (nomatch h), fun h => (nomatch h)⟩
  dsimp only
  rcases hround : runLoadQuorum (LoadSettings.quorumPeers (peer :: rest)
      preferredId) peerIdOf settings.probeFn settings.documentPath
      settings.quorumConfig with error | _ | _ | ⟨narrowed, winningHashHex⟩
  · exact ⟨fun _ _ h => (nomatch h), fun h => (nomatch h)⟩
  · exact absurd hround hskipped
  · exact ⟨fun _ _ h => (nomatch h), fun _ => .inr rfl⟩
  obtain ⟨hcohort, hvoters⟩ := runLoadQuorum_ok hnodup hround
  have hids : (narrowed.map peerIdOf).Nodup := by
    rw [hcohort]
    exact hnodup.sublist
      ((List.filter_sublist.trans (List.take_sublist _ _)).map peerIdOf)
  have hnever : NeverForks (settings.attempt (some winningHashHex)) narrowed
      (settings.loadFrom (.ok (.ok narrowed winningHashHex))
        (some winningHashHex) narrowed) :=
    loadFrom_neverForks settings _ hids hvoters
  constructor
  · intro _ _ heq
    cases heq
    rw [← hcohort]
    exact hnever
  · intro hfalse
    obtain ⟨error, herror, -⟩ := hnever.thrown
      (by rw [hfalse]; exact fun h => (nomatch h))
    rw [hfalse] at herror
    cases herror

end Settings

/-- Three peers, the first of them on two addresses.  Two of them vote for one
hash; the first of these serves something else. -/
def equivocating : LoadSettings where
  documentPath := "/doc"
  config := ⟨none, none, none, none, none⟩
  compactionEnabled := true
  loadRequest := .ok ()
  probeFn := fun peer =>
    if peer = "/p2p/b" then .ok (some (.hash [2])) else .ok (some (.hash [1]))
  attempt := fun _ a =>
    if a.1 = "/p2p/a" then .bindCheckFailed "03"
    else if a.2 = .snapshotLoad then .notLoaded
    else .loaded

/-- The load goes on with the second of the peers that agree. -/
theorem load_neverForks_equivocating :
    NeverForks (equivocating.attempt (some "01"))
      (agreeingCohort equivocating.quorumConfig
        (LoadSettings.quorumPeers
          ["/p2p/a", "/p2p/r/p2p-circuit/p2p/a", "/p2p/b", "/p2p/c"] none)
        equivocating.probeFn "01")
      (equivocating.load
        ["/p2p/a", "/p2p/r/p2p-circuit/p2p/a", "/p2p/b", "/p2p/c"] none) :=
  (load_neverForks equivocating (by decide) rfl
    ["/p2p/a", "/p2p/r/p2p-circuit/p2p/a", "/p2p/b", "/p2p/c"] none).1
    ["/p2p/a", "/p2p/c"] "01" rfl

end Collabswarm.Document
