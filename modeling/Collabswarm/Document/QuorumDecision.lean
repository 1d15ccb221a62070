import Collabswarm.Document.LoadQuorum

/-!
# What the vote of an initial load decides

`decideLoadQuorum` counts votes under texts, scans the buckets for a largest
one and sorts what remains into three failures.  Here it is compared with the
vote itself: the hashes and the peers that voted for them.  The decision is a
hash exactly where some hash has `q` votes, a new document exactly where nobody
votes for a hash and `q` peers do not know the document, and otherwise the
failure depends on how many peers were asked and answered.  A strict majority
of the votes for hashes does not depend on the order of the answers.
-/

namespace Collabswarm.Document

/-! ## Hashes and their texts -/

theorem digitChar_inj {m n : ℕ} (hm : m < 16) (hn : n < 16)
    (h : Nat.digitChar m = Nat.digitChar n) : m = n := by
  interval_cases m <;> interval_cases n <;> first | rfl | (revert h; decide)

/-- Different hashes are counted under different texts. -/
theorem tipsHashToHex_injective : Function.Injective tipsHashToHex := by
  intro bytes bytes' h
  rw [tipsHashToHex, tipsHashToHex, String.ofList_inj] at h
  induction bytes generalizing bytes' with
  | nil =>
      rcases bytes' with _ | ⟨b', bytes'⟩
      · rfl
      · cases h
  | cons b bytes ih =>
      rcases bytes' with _ | ⟨b', bytes'⟩
      · cases h
      · simp only [List.flatMap_cons, List.cons_append, List.nil_append,
          List.cons.injEq] at h
        obtain ⟨hhigh, hlow, hrest⟩ := h
        have hlt := b.toNat_lt
        have hlt' := b'.toNat_lt
        have hhigh' := digitChar_inj (by omega) (by omega) hhigh
        have hlow' := digitChar_inj (by omega) (by omega) hlow
        have hb : b = b' := UInt8.toNat_inj.1 (by omega)
        rw [hb, ih hrest]

/-! ## The vote -/

/-- The peers that vote for a hash, in the order of the list. -/
def hashVoters (bytes : Bytes) (advertisements : List PeerTipAdvertisement) :
    List String :=
  (advertisements.filter (·.hash = some (.hash bytes))).map (·.peerId)

/-- The peers that do not know the document, in the order of the list. -/
def disclaimers (advertisements : List PeerTipAdvertisement) : List String :=
  (advertisements.filter (·.hash = some .unknownDoc)).map (·.peerId)

/-- The vote is for a hash. -/
def PeerTipAdvertisement.votesHash (adv : PeerTipAdvertisement) : Bool :=
  match adv.hash with
  | some (.hash _) => true
  | _ => false

/-- How many peers answered. -/
def respondingCount (advertisements : List PeerTipAdvertisement) : ℕ :=
  advertisements.countP (·.hash.isSome)

section Vote

variable {advertisements advertisements' : List PeerTipAdvertisement}

/-- The votes under the text of a vote are those of the peers that cast it. -/
theorem votesFor_key (v : TipVote) (hkey : ∀ w : TipVote, w.key = v.key → w = v)
    (advertisements : List PeerTipAdvertisement) :
    votesFor v.key advertisements =
      (advertisements.filter (·.hash = some v)).map (·.peerId) := by
  induction advertisements with
  | nil => rfl
  | cons adv advertisements ih =>
      have hcons : votesFor v.key (adv :: advertisements) =
          votesFor v.key [adv] ++ votesFor v.key advertisements :=
        Tally.votesFor_append _ _ [adv] _
      rw [hcons, ih]
      rcases hhash : adv.hash with _ | w
      · simp [votesFor, Tally.votesFor, PeerTipAdvertisement.vote, hhash]
      · by_cases hw : w = v
        · simp [votesFor, Tally.votesFor, PeerTipAdvertisement.vote, hhash, hw]
        · have hne : w.key ≠ v.key := fun h => hw (hkey w h)
          simp [votesFor, Tally.votesFor, PeerTipAdvertisement.vote, hhash, hw,
            hne]

theorem votesFor_hash (bytes : Bytes)
    (advertisements : List PeerTipAdvertisement) :
    votesFor (tipsHashToHex bytes) advertisements =
      hashVoters bytes advertisements := by
  refine votesFor_key (.hash bytes) (fun w hw => ?_) advertisements
  rcases w with bytes' | _
  · rw [tipsHashToHex_injective hw]
  · exact absurd hw.symm (tipsHashToHex_ne bytes)

theorem votesFor_unknownDoc (advertisements : List PeerTipAdvertisement) :
    votesFor unknownDocTallyKey advertisements =
      disclaimers advertisements := by
  refine votesFor_key .unknownDoc (fun w hw => ?_) advertisements
  rcases w with bytes | _
  · exact absurd hw (tipsHashToHex_ne bytes)
  · rfl

/-- A text with votes is that of a hash, or it stands for the peers that do
not know the document. -/
theorem exists_hash_of_votesFor {key : String}
    (hvotes : votesFor key advertisements ≠ [])
    (hkey : key ≠ unknownDocTallyKey) :
    ∃ bytes, key = tipsHashToHex bytes := by
  rw [votesFor, Tally.votesFor] at hvotes
  obtain ⟨id, hid⟩ := List.exists_mem_of_ne_nil _ hvotes
  obtain ⟨e, he, -⟩ := List.mem_map.1 hid
  obtain ⟨he, hekey⟩ := List.mem_filter.1 he
  obtain ⟨adv, -, hvote⟩ := List.mem_filterMap.1 he
  rw [PeerTipAdvertisement.vote] at hvote
  obtain ⟨v, -, rfl⟩ := Option.map_eq_some_iff.1 hvote
  have hv : v.key = key := by simpa using hekey
  rcases v with bytes | _
  · exact ⟨bytes, hv.symm⟩
  · exact absurd hv.symm hkey

theorem length_hashVoters (bytes : Bytes)
    (advertisements : List PeerTipAdvertisement) :
    (hashVoters bytes advertisements).length =
      advertisements.countP (·.hash = some (.hash bytes)) := by
  rw [hashVoters, List.length_map, List.countP_eq_length_filter]

theorem length_disclaimers (advertisements : List PeerTipAdvertisement) :
    (disclaimers advertisements).length =
      advertisements.countP (·.hash = some .unknownDoc) := by
  rw [disclaimers, List.length_map, List.countP_eq_length_filter]

/-- The voters of two hashes all vote for a hash. -/
theorem length_hashVoters_add_le {bytes bytes' : Bytes} (h : bytes ≠ bytes')
    (advertisements : List PeerTipAdvertisement) :
    (hashVoters bytes advertisements).length +
        (hashVoters bytes' advertisements).length ≤
      advertisements.countP (·.votesHash) := by
  rw [length_hashVoters, length_hashVoters]
  induction advertisements with
  | nil => rfl
  | cons adv advertisements ih =>
      simp only [List.countP_cons]
      rcases hhash : adv.hash with _ | _ | _
      · simpa [hhash, PeerTipAdvertisement.votesHash] using ih
      · rename_i voted
        have hone : (if voted = bytes then 1 else 0) +
            (if voted = bytes' then 1 else 0) ≤ 1 := by
          split
          · rename_i hvoted
            rw [if_neg (hvoted ▸ h)]
          · split <;> omega
        have hvotes : adv.votesHash = true := by
          rw [PeerTipAdvertisement.votesHash, hhash]
        simp only [hvotes, Option.some.injEq, TipVote.hash.injEq,
          decide_eq_true_eq, if_true]
        omega
      · simpa [hhash, PeerTipAdvertisement.votesHash] using ih

end Vote

/-! ## The decision -/

section Decision

variable {advertisements : List PeerTipAdvertisement} {q : ℕ}

/-- The winner has at least as many votes as every bucket that takes part. -/
theorem decideLoadQuorum_largest {kind : DecisionKind} {key : String}
    {ids : List String} {responding q' : ℕ}
    (h : decideLoadQuorum advertisements q =
      .ok (.ok kind key ids responding q'))
    {e : String × List String}
    (he : e ∈ eligibleBuckets
      (Tally.tally PeerTipAdvertisement.vote advertisements)) :
    e.2.length ≤ ids.length := by
  have hbest := Tally.best_largest (eligibleBuckets
    (Tally.tally PeerTipAdvertisement.vote advertisements))
  rw [decideLoadQuorum] at h
  split at h
  · cases h
  split at h
  · cases h
  dsimp only at h
  split at h
  · cases h
  split at h
  · cases h
  split at h
  · cases h
  · cases h
    exact hbest.largest e he

/-- The failures that are left. -/
theorem decideLoadQuorum_failed {reason : LoadQuorumFailedReason}
    {responding q' : ℕ} {agreement : List (String × ℕ)} (hq : 1 ≤ q)
    (h : decideLoadQuorum advertisements q =
      .ok (.failed reason responding q' agreement)) :
    reason = (if advertisements = [] then .noPeersQueried
      else if respondingCount advertisements < q then .insufficientResponses
      else .noMajority) := by
  rw [decideLoadQuorum, if_neg (by omega)] at h
  split at h
  · rename_i hnil
    cases h
    rw [if_pos hnil]
  rename_i hnil
  rw [if_neg hnil, respondingCount]
  dsimp only at h
  split at h
  · rename_i hzero
    cases h
    rw [hzero, if_pos (by omega)]
  split at h
  · cases h
    rfl
  split at h
  · cases h
    rfl
  · cases h

/-- The bucket of the peers that do not know the document takes part where
nobody votes for a hash. -/
theorem disclaimers_mem_eligibleBuckets
    (hnone : ∀ bytes, hashVoters bytes advertisements = [])
    (hsome : disclaimers advertisements ≠ []) :
    (unknownDocTallyKey, votesFor unknownDocTallyKey advertisements) ∈
      eligibleBuckets
        (Tally.tally PeerTipAdvertisement.vote advertisements) := by
  rw [← votesFor_unknownDoc] at hsome
  have hentry := Tally.votesFor_mem_entries hsome
  rw [eligibleBuckets, if_neg]
  · exact hentry
  · rw [List.any_eq_true]
    rintro ⟨key, hmem, hkey⟩
    obtain ⟨e, he, rfl⟩ := List.mem_map.1 hmem
    obtain ⟨hvotes, hnonempty⟩ := Tally.mem_entries_tally he
    rw [hvotes] at hnonempty
    obtain ⟨bytes, hbytes⟩ :=
      exists_hash_of_votesFor hnonempty (by simpa using hkey)
    apply hnonempty
    have hvoters := votesFor_hash bytes advertisements
    rw [← hbytes, hnone bytes] at hvoters
    exact hvoters

/-- What the vote asks of a decision: a hash wins exactly where some hash has
`q` votes, and then one with the most votes; a new document is decided exactly
where nobody votes for a hash and `q` peers do not know the document; and a
failure tells whether nobody was asked, fewer than `q` peers answered, or
neither. -/
structure FollowsVote (advertisements : List PeerTipAdvertisement) (q : ℕ)
    (decision : LoadQuorumDecision) : Prop where
  tipHash : (∃ key ids responding q',
      decision = .ok .tipHash key ids responding q') ↔
    ∃ bytes, q ≤ (hashVoters bytes advertisements).length
  winner : ∀ key ids responding q',
    decision = .ok .tipHash key ids responding q' →
      ∃ bytes, key = tipsHashToHex bytes ∧
        ids = hashVoters bytes advertisements ∧
        ∀ other, (hashVoters other advertisements).length ≤
          (hashVoters bytes advertisements).length
  newDoc : (∃ key ids responding q',
      decision = .ok .newDoc key ids responding q') ↔
    (∀ bytes, hashVoters bytes advertisements = []) ∧
      q ≤ (disclaimers advertisements).length
  failed : ∀ reason responding q' agreement,
    decision = .failed reason responding q' agreement →
      reason = (if advertisements = [] then .noPeersQueried
        else if respondingCount advertisements < q then .insufficientResponses
        else .noMajority)

/-- A hash that wins is voted for by at least `q` peers, and no hash by
more. -/
theorem decideLoadQuorum_tipHash {key : String} {ids : List String}
    {responding q' : ℕ} (hq : 1 ≤ q)
    (h : decideLoadQuorum advertisements q =
      .ok (.ok .tipHash key ids responding q')) :
    ∃ bytes, key = tipsHashToHex bytes ∧
      ids = hashVoters bytes advertisements ∧
      q ≤ (hashVoters bytes advertisements).length ∧
      ∀ other, (hashVoters other advertisements).length ≤
        (hashVoters bytes advertisements).length := by
  obtain ⟨hids, hmany, hkind, -⟩ := decideLoadQuorum_ok h
  have hkey : key ≠ unknownDocTallyKey := fun hkey => nomatch hkind.2 hkey
  have hnonempty : votesFor key advertisements ≠ [] := by
    rw [← hids]
    exact List.ne_nil_of_length_pos (hq.trans hmany)
  obtain ⟨bytes, rfl⟩ := exists_hash_of_votesFor hnonempty hkey
  rw [votesFor_hash] at hids
  refine ⟨bytes, rfl, hids, hids ▸ hmany, fun other => ?_⟩
  by_cases hother : votesFor (tipsHashToHex other) advertisements = []
  · rw [← votesFor_hash other, hother]
    exact Nat.zero_le _
  · have hle := decideLoadQuorum_largest h
      (votesFor_mem_eligibleBuckets (tipsHashToHex_ne other) hother)
    rw [← votesFor_hash other, ← hids]
    exact hle

/-- A new document is decided where nobody votes for a hash. -/
theorem decideLoadQuorum_newDoc {key : String} {ids : List String}
    {responding q' : ℕ}
    (h : decideLoadQuorum advertisements q =
      .ok (.ok .newDoc key ids responding q')) :
    (∀ bytes, hashVoters bytes advertisements = []) ∧
      q ≤ (disclaimers advertisements).length := by
  obtain ⟨hids, hmany, hkind, hunknown⟩ := decideLoadQuorum_ok h
  have hkey := hkind.1 rfl
  rw [hkey, votesFor_unknownDoc] at hids
  refine ⟨fun bytes => ?_, hids ▸ hmany⟩
  rw [← votesFor_hash]
  exact hunknown hkey _ (tipsHashToHex_ne bytes)

/-- A hash with `q` votes leads to the decision for a hash. -/
theorem decideLoadQuorum_of_hash {bytes : Bytes} (hq : 1 ≤ q)
    (hvotes : q ≤ (hashVoters bytes advertisements).length) :
    ∃ key ids responding, decideLoadQuorum advertisements q =
      .ok (.ok .tipHash key ids responding q) := by
  rw [← votesFor_hash] at hvotes
  have hnonempty : votesFor (tipsHashToHex bytes) advertisements ≠ [] :=
    List.ne_nil_of_length_pos (hq.trans hvotes)
  obtain ⟨best, heligible, -, responding, hdecision⟩ :=
    decideLoadQuorum_of_eligible hq
      (votesFor_mem_eligibleBuckets (tipsHashToHex_ne bytes) hnonempty) hvotes
  have hbest : best ≠ unknownDocTallyKey := fun h =>
    hnonempty ((mem_eligibleBuckets heligible).2 h _ (tipsHashToHex_ne bytes))
  rw [if_neg hbest] at hdecision
  exact ⟨best, _, responding, hdecision⟩

/-- `q` peers that do not know the document lead to the decision for a new
one, if nobody votes for a hash. -/
theorem decideLoadQuorum_of_disclaimers (hq : 1 ≤ q)
    (hnone : ∀ bytes, hashVoters bytes advertisements = [])
    (hvotes : q ≤ (disclaimers advertisements).length) :
    ∃ key ids responding, decideLoadQuorum advertisements q =
      .ok (.ok .newDoc key ids responding q) := by
  have hsome : disclaimers advertisements ≠ [] :=
    List.ne_nil_of_length_pos (hq.trans hvotes)
  rw [← votesFor_unknownDoc] at hvotes
  obtain ⟨best, -, hmany, responding, hdecision⟩ :=
    decideLoadQuorum_of_eligible hq
      (disclaimers_mem_eligibleBuckets hnone hsome) hvotes
  have hbest : best = unknownDocTallyKey := by
    by_contra hne
    obtain ⟨bytes, rfl⟩ := exists_hash_of_votesFor
      (List.ne_nil_of_length_pos (hq.trans hmany)) hne
    rw [votesFor_hash, hnone bytes] at hmany
    exact absurd (hq.trans hmany) (by simp)
  rw [if_pos hbest] at hdecision
  exact ⟨best, _, responding, hdecision⟩

theorem decideLoadQuorum_followsVote {decision : LoadQuorumDecision}
    (hq : 1 ≤ q) (h : decideLoadQuorum advertisements q = .ok decision) :
    FollowsVote advertisements q decision := by
  constructor
  · constructor
    · rintro ⟨key, ids, responding, q', rfl⟩
      obtain ⟨bytes, -, -, hmany, -⟩ := decideLoadQuorum_tipHash hq h
      exact ⟨bytes, hmany⟩
    · rintro ⟨bytes, hvotes⟩
      obtain ⟨key, ids, responding, hdecision⟩ :=
        decideLoadQuorum_of_hash hq hvotes
      rw [h] at hdecision
      cases hdecision
      exact ⟨key, ids, responding, q, rfl⟩
  · rintro key ids responding q' rfl
    obtain ⟨bytes, hkey, hids, -, hlargest⟩ := decideLoadQuorum_tipHash hq h
    exact ⟨bytes, hkey, hids, hlargest⟩
  · constructor
    · rintro ⟨key, ids, responding, q', rfl⟩
      exact decideLoadQuorum_newDoc h
    · rintro ⟨hnone, hvotes⟩
      obtain ⟨key, ids, responding, hdecision⟩ :=
        decideLoadQuorum_of_disclaimers hq hnone hvotes
      rw [h] at hdecision
      cases hdecision
      exact ⟨key, ids, responding, q, rfl⟩
  · rintro reason responding q' agreement rfl
    exact decideLoadQuorum_failed hq h

end Decision

/-! ## The order of the answers -/

/-- The hash that won, or the text for a new document. -/
def LoadQuorumDecision.winningHashHex : LoadQuorumDecision → Option String
  | .ok _ winningHashHex _ _ _ => some winningHashHex
  | .failed _ _ _ _ => none

section Order

variable {advertisements advertisements' : List PeerTipAdvertisement} {q : ℕ}

theorem length_hashVoters_of_perm (h : advertisements.Perm advertisements')
    (bytes : Bytes) :
    (hashVoters bytes advertisements).length =
      (hashVoters bytes advertisements').length := by
  rw [length_hashVoters, length_hashVoters]
  exact h.countP_eq _

theorem length_disclaimers_of_perm
    (h : advertisements.Perm advertisements') :
    (disclaimers advertisements).length =
      (disclaimers advertisements').length := by
  rw [length_disclaimers, length_disclaimers]
  exact h.countP_eq _

/-- With a strict majority of the votes for hashes as the threshold, the
winner does not depend on the order of the answers. -/
theorem winningHashHex_of_perm (hq : 1 ≤ q)
    (hperm : advertisements.Perm advertisements')
    (hmajority : advertisements.countP (·.votesHash) < 2 * q)
    {decision decision' : LoadQuorumDecision}
    (h : decideLoadQuorum advertisements q = .ok decision)
    (h' : decideLoadQuorum advertisements' q = .ok decision') :
    decision'.winningHashHex = decision.winningHashHex := by
  have hfollows' := decideLoadQuorum_followsVote hq h'
  rcases decision with ⟨_ | _, key, ids, responding, q'⟩ | _
  · obtain ⟨bytes, rfl, -, hmany, -⟩ := decideLoadQuorum_tipHash hq h
    rw [length_hashVoters_of_perm hperm] at hmany
    obtain ⟨key', ids', responding', q'', rfl⟩ :=
      hfollows'.tipHash.2 ⟨bytes, hmany⟩
    obtain ⟨bytes', rfl, -, hmany', -⟩ := decideLoadQuorum_tipHash hq h'
    have hsame : bytes' = bytes := by
      by_contra hne
      have hle := length_hashVoters_add_le hne advertisements
      rw [length_hashVoters_of_perm hperm, length_hashVoters_of_perm hperm]
        at hle
      omega
    rw [hsame]
    rfl
  · have hkey := (decideLoadQuorum_ok h).2.2.1.1 rfl
    obtain ⟨hnone, hmany⟩ := decideLoadQuorum_newDoc h
    have hnone' : ∀ bytes, hashVoters bytes advertisements' = [] := by
      intro bytes
      rw [← List.length_eq_zero_iff, ← length_hashVoters_of_perm hperm,
        hnone bytes]
      rfl
    rw [length_disclaimers_of_perm hperm] at hmany
    obtain ⟨key', ids', responding', q'', rfl⟩ :=
      hfollows'.newDoc.2 ⟨hnone', hmany⟩
    rw [LoadQuorumDecision.winningHashHex, hkey,
      (decideLoadQuorum_ok h').2.2.1.1 rfl]
    rfl
  · have hfollows := decideLoadQuorum_followsVote hq h
    rcases decision' with ⟨_ | _, key, ids, responding, q'⟩ | _
    · obtain ⟨bytes, -, -, hmany, -⟩ := decideLoadQuorum_tipHash hq h'
      rw [← length_hashVoters_of_perm hperm] at hmany
      obtain ⟨_, _, _, _, hok⟩ := hfollows.tipHash.2 ⟨bytes, hmany⟩
      cases hok
    · obtain ⟨hnone, hmany⟩ := decideLoadQuorum_newDoc h'
      have hnone' : ∀ bytes, hashVoters bytes advertisements = [] := by
        intro bytes
        rw [← List.length_eq_zero_iff, length_hashVoters_of_perm hperm,
          hnone bytes]
        rfl
      rw [← length_disclaimers_of_perm hperm] at hmany
      obtain ⟨_, _, _, _, hok⟩ := hfollows.newDoc.2 ⟨hnone', hmany⟩
      cases hok
    · rfl

/-- The decision is exactly what the vote asks for, and with a strict majority
of the votes for hashes as the threshold its winner does not depend on the
order of the answers. -/
theorem decideLoadQuorum_exact (advertisements : List PeerTipAdvertisement)
    (q : ℕ) (hq : 1 ≤ q) :
    ∃ decision, decideLoadQuorum advertisements q = .ok decision ∧
      FollowsVote advertisements q decision ∧
      ∀ advertisements', advertisements.Perm advertisements' →
        advertisements.countP (·.votesHash) < 2 * q →
          ∃ decision', decideLoadQuorum advertisements' q = .ok decision' ∧
            decision'.winningHashHex = decision.winningHashHex := by
  obtain ⟨decision, h⟩ := decideLoadQuorum_total advertisements hq
  refine ⟨decision, h, decideLoadQuorum_followsVote hq h, ?_⟩
  intro advertisements' hperm hmajority
  obtain ⟨decision', h'⟩ := decideLoadQuorum_total advertisements' hq
  exact ⟨decision', h', winningHashHex_of_perm hq hperm hmajority h h'⟩

/-- Two votes for one hash among four answers, at the threshold two. -/
theorem decideLoadQuorum_exact_four :
    ∃ decision, decideLoadQuorum
        [⟨"p1", some (.hash [0xab])⟩, ⟨"p2", some .unknownDoc⟩, ⟨"p3", none⟩,
          ⟨"p4", some (.hash [0xab])⟩] 2 = .ok decision ∧
      decision = .ok .tipHash "ab" ["p1", "p4"] 3 2 := by
  obtain ⟨decision, h, -, -⟩ := decideLoadQuorum_exact
    [⟨"p1", some (.hash [0xab])⟩, ⟨"p2", some .unknownDoc⟩, ⟨"p3", none⟩,
      ⟨"p4", some (.hash [0xab])⟩] 2 (by decide)
  refine ⟨decision, h, ?_⟩
  have hrun : decideLoadQuorum
      [⟨"p1", some (.hash [0xab])⟩, ⟨"p2", some .unknownDoc⟩, ⟨"p3", none⟩,
        ⟨"p4", some (.hash [0xab])⟩] 2 =
      .ok (.ok .tipHash "ab" ["p1", "p4"] 3 2) := by
    decide +kernel
  rw [h] at hrun
  cases hrun
  rfl

end Order

end Collabswarm.Document
