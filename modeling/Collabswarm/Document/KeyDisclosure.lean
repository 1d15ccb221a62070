import Collabswarm.Document.CollabswarmDocument
import Collabswarm.Keychain.Bootstrap

/-!
# Which keys a document gives away

A load or snapshot response carries the part of the keychain that the history
visibility of its sender allows, a Welcome carries the recipient's part of it,
and a rotation is sent as the change that it makes.  A key that no member would
give away, and that no message has, stays with the members that hold it: a
member that joins later never gets it.  The order of the list carries this,
since what stands before the current key, or before the invitation epoch, stays
there.
-/

namespace Collabswarm.Document

section Model

variable {U C E K : Type} [DecidableEq E]

/-- A document with its providers. -/
structure KeyHolder (U C E K : Type) where
  providers : Providers E K
  document : CollabswarmDocument U C E K

/-- The members of a document, and the keychain changes that were sent. -/
structure KeyExchange (U C E K : Type) where
  members : List (KeyHolder U C E K)
  changes : List (List (PushOp (E × K)))

/-- A member adds a key and sends the change, answers a load request, sends a
Welcome, merges a change that was sent, records the epoch of a Welcome, or
changes its history visibility. -/
inductive KeyExchangeEvent (E K : Type) where
  | rotate (member : ℕ) (a : Keychain.Addition E K)
  | respond (member : ℕ) (opIds : ℕ → ℕ)
  | sendWelcome (member : ℕ) (opIds : ℕ → ℕ)
  | merge (member change : ℕ)
  | recordInvitationEpoch (member : ℕ) (epochId : E)
  | setHistoryVisibility (member : ℕ) (value : HistoryVisibility)

/-- `_keychainChangesForVisibility`, of a keychain that has `historySince`. -/
def CollabswarmDocument.keychainChangesForVisibility (p : Providers E K)
    (d : CollabswarmDocument U C E K) (opIds : ℕ → ℕ) :
    Except KeychainError (List (PushOp (E × K))) :=
  match p.historyVisibility with
  | .fullHistory => .ok (d.keychain.history p.keychain)
  | .sinceInvited =>
      match d.invitationEpoch with
      | none => d.keychain.currentKeyChange p.keychain opIds
      | some invitationEpoch =>
          d.keychain.historySince p.keychain invitationEpoch opIds
  | .currentOnly => d.keychain.currentKeyChange p.keychain opIds

/-- The entries from the first one with an id on, or all if there is none. -/
def entriesSince (entries : List (E × K)) (epochId : E) : List (E × K) :=
  match entries.dropWhile (fun entry => entry.1 ≠ epochId) with
  | [] => entries
  | tail => tail

/-- The entries that a visibility shows of a list. -/
def shownEntries (visibility : HistoryVisibility) (invitationEpoch : Option E)
    (entries : List (E × K)) : List (E × K) :=
  match visibility with
  | .fullHistory => entries
  | .sinceInvited =>
      match invitationEpoch with
      | none => entries.getLast?.toList
      | some invitationEpoch => entriesSince entries invitationEpoch
  | .currentOnly => entries.getLast?.toList

namespace KeyHolder

variable (m : KeyHolder U C E K)

/-- The list document of the keychain. -/
def keys : PushDoc (E × K) := m.document.keychain.doc

/-- The member with another keychain. -/
def withKeychain (keychain : Keychain E K) : KeyHolder U C E K :=
  { m with document := { m.document with keychain } }

/-- The setter of `historyVisibility`. -/
def setHistoryVisibility (value : HistoryVisibility) : KeyHolder U C E K :=
  { m with providers := { m.providers with historyVisibility := value } }

/-- `recordInvitationEpoch` of the document. -/
def recordInvitationEpoch [DecidableEq K] (epochId : E) : KeyHolder U C E K :=
  { m with document := m.document.recordInvitationEpoch epochId }

/-- The keys that the member's responses show, pending ones apart. -/
def disclosed : List (E × K) :=
  shownEntries m.providers.historyVisibility m.document.invitationEpoch
    m.keys.contents

/-- The key is in the member's list. -/
def Holds (k : K) : Prop := ∃ entry ∈ m.keys.contents, entry.2 = k

instance decidableHolds [DecidableEq K] (k : K) : Decidable (m.Holds k) :=
  inferInstanceAs (Decidable (∃ entry ∈ m.keys.contents, entry.2 = k))

/-- A change brings no second operation for the boundary of the history that
the member shows. -/
def KeepsBoundary (change : List (PushOp (E × K))) : Prop :=
  m.providers.historyVisibility = .sinceInvited →
    ∀ invitationEpoch ∈ m.document.invitationEpoch,
      ∀ op ∈ m.keys.pending ++ change, op.content.1 = invitationEpoch →
        op.id ∈ m.keys.ids

/-- Nothing that the member sends has the key. -/
structure Hides (k : K) : Prop where
  wellFormed : m.document.keychain.WellFormed
  pending : ∀ op ∈ m.keys.pending, op.content.2 ≠ k
  disclosed : ∀ entry ∈ m.disclosed, entry.2 ≠ k

end KeyHolder

namespace KeyExchange

/-- A change is sent, or the call throws. -/
def send (s : KeyExchange U C E K) :
    Except KeychainError (List (PushOp (E × K))) → KeyExchange U C E K
  | .ok change => { s with changes := s.changes ++ [change] }
  | .error _ => s

/-- One event; events of missing members and changes do nothing. -/
def step [DecidableEq K] (s : KeyExchange U C E K) :
    KeyExchangeEvent E K → KeyExchange U C E K
  | .rotate r a =>
      match s.members[r]? with
      | some m =>
          let (keychain, change) :=
            a.run m.providers.keychain m.document.keychain
          ⟨s.members.set r (m.withKeychain keychain), s.changes ++ [change]⟩
      | none => s
  | .respond r opIds =>
      match s.members[r]? with
      | some m =>
          s.send (m.document.keychainChangesForVisibility m.providers opIds)
      | none => s
  | .sendWelcome r opIds =>
      match s.members[r]? with
      | some m =>
          s.send (m.document.keychainChangesForWelcome m.providers opIds)
      | none => s
  | .merge r n =>
      match s.members[r]?, s.changes[n]? with
      | some m, some change =>
          { s with
            members := s.members.set r
              (m.withKeychain (m.document.keychain.merge change)) }
      | _, _ => s
  | .recordInvitationEpoch r epochId =>
      match s.members[r]? with
      | some m =>
          { s with members := s.members.set r (m.recordInvitationEpoch epochId) }
      | none => s
  | .setHistoryVisibility r value =>
      match s.members[r]? with
      | some m =>
          { s with members := s.members.set r (m.setHistoryVisibility value) }
      | none => s

/-- No member gives the key away, and no message has it. -/
structure Hidden (s : KeyExchange U C E K) (k : K) : Prop where
  members : ∀ m ∈ s.members, m.Hides k
  changes : ∀ change ∈ s.changes, ∀ op ∈ change, op.content.2 ≠ k

/-- The step adds no such key, shows no more of a list that has it, and brings
no copy of the key from which on its member shows the list. -/
def KeepsHidden (k : K) (s : KeyExchange U C E K) :
    KeyExchangeEvent E K → Prop
  | .rotate r a => a.entry.2 ≠ k ∧
      ∀ m ∈ s.members[r]?, m.document.keychain.NewNumber a.opId
  | .merge r n => ∀ m ∈ s.members[r]?, ∀ change ∈ s.changes[n]?,
      m.Holds k → m.KeepsBoundary change
  | .recordInvitationEpoch r epochId => ∀ m ∈ s.members[r]?,
      m.document.invitationEpoch = none →
        ∀ entry ∈ ({ m with document := { m.document with
          invitationEpoch := some epochId } } : KeyHolder U C E K).disclosed,
          entry.2 ≠ k
  | .setHistoryVisibility r value => ∀ m ∈ s.members[r]?,
      ∀ entry ∈ (m.setHistoryVisibility value).disclosed, entry.2 ≠ k
  | .respond _ _ => True
  | .sendWelcome _ _ => True

end KeyExchange

end Model

/-! ## What is sent -/

section Sent

variable {U C E K : Type} {flavour : Flavour} {opIds : ℕ → ℕ}

/-- A slice has the copied entries. -/
theorem content_mem_of_mem_slice [DecidableEq E] [DecidableEq K]
    {entries : List (E × K)} {op : PushOp (E × K)}
    (hop : op ∈ (Keychain.slice flavour opIds entries).history flavour) :
    op.content ∈ entries := by
  have hall : (Keychain.slice flavour opIds entries).doc.pending = [] ∧
      ∀ op ∈ (Keychain.slice flavour opIds entries).doc.log,
        op.content ∈ entries := by
    clear hop
    induction entries using List.reverseRecOn with
    | nil => exact ⟨rfl, fun op hop => absurd hop List.not_mem_nil⟩
    | append_singleton entries entry ih =>
        rw [Keychain.slice_append_singleton]
        refine ⟨ih.1, ?_⟩
        intro op hop
        rcases List.mem_append.1 hop with hop | hop
        · exact List.mem_append_left _ (ih.2 op hop)
        · rw [List.mem_singleton.1 hop]
          exact List.mem_append_right _ List.mem_cons_self
  apply hall.2
  cases flavour with
  | automerge => exact hop
  | yjs =>
      rw [Keychain.history, CausalLog.all, hall.1, List.append_nil] at hop
      exact hop

theorem content_of_mem_history {kc : Keychain E K} {op : PushOp (E × K)}
    (hop : op ∈ kc.history flavour) :
    op ∈ kc.doc.pending ∨ op.content ∈ kc.doc.contents := by
  have hlog : op ∈ kc.doc.log → op.content ∈ kc.doc.contents :=
    fun h => CausalLog.mem_contents.2 ⟨op, h, rfl⟩
  cases flavour with
  | automerge => exact Or.inr (hlog hop)
  | yjs =>
      rcases List.mem_append.1 hop with hop | hop
      · exact Or.inr (hlog hop)
      · exact Or.inl hop

theorem content_of_mem_currentKeyChange [DecidableEq E] [DecidableEq K]
    {kc : Keychain E K} {change : List (PushOp (E × K))}
    (h : kc.currentKeyChange flavour opIds = .ok change)
    {op : PushOp (E × K)} (hop : op ∈ change) :
    op.content ∈ kc.doc.contents.getLast?.toList := by
  rw [Keychain.currentKeyChange] at h
  split at h
  · cases h
  · rename_i entry hlast
    obtain rfl := Except.ok.inj h
    rw [hlast]
    exact content_mem_of_mem_slice hop

end Sent

/-! ## What is shown -/

section Shown

variable {E K : Type} [DecidableEq E]

theorem entriesSince_eq_self {entries : List (E × K)} {epoch : E}
    (h : entries.dropWhile (fun entry => entry.1 ≠ epoch) = []) :
    entriesSince entries epoch = entries := by
  rw [entriesSince, h]

theorem entriesSince_eq_dropWhile {entries : List (E × K)} {epoch : E}
    (h : entries.dropWhile (fun entry => entry.1 ≠ epoch) ≠ []) :
    entriesSince entries epoch =
      entries.dropWhile (fun entry => entry.1 ≠ epoch) := by
  rw [entriesSince]
  split
  · rename_i hnil
    exact absurd hnil h
  · rfl

theorem getLast?_entriesSince (entries : List (E × K)) (epoch : E) :
    (entriesSince entries epoch).getLast? = entries.getLast? := by
  by_cases h : entries.dropWhile (fun entry => entry.1 ≠ epoch) = []
  · rw [entriesSince_eq_self h]
  · rw [entriesSince_eq_dropWhile h, Keychain.getLast?_dropWhile h]

theorem entriesSince_eq_drop {entries : List (E × K)} {epoch : E} {i : ℕ}
    (h : entries.findIdx? (fun entry => entry.1 = epoch) = some i) :
    entriesSince entries epoch = entries.drop i := by
  obtain ⟨hi, hfind⟩ := List.findIdx?_eq_some_iff_findIdx_eq.1 h
  have hdrop : entries.dropWhile (fun entry => entry.1 ≠ epoch) =
      entries.drop i := by
    rw [List.dropWhile_eq_drop_findIdx_not]
    simp [hfind]
  have hne : entries.drop i ≠ [] := by
    rw [ne_eq, List.drop_eq_nil_iff]
    omega
  rw [← hdrop] at hne ⊢
  exact entriesSince_eq_dropWhile hne

/-- A boundary that is advanced to shows less. -/
theorem entriesSince_subset_of_advanced [DecidableEq K] {kc : Keychain E K}
    {existing incoming : E}
    (h : (CollabswarmDocument.shouldAdvanceInvitationEpoch kc existing
      incoming).1 = true) :
    entriesSince kc.doc.contents incoming ⊆
      entriesSince kc.doc.contents existing := by
  rw [CollabswarmDocument.shouldAdvanceInvitationEpoch] at h
  have hkeys : ∀ epoch : E,
      kc.keys.1.findIdx? (fun entry => entry.1 = epoch) =
        kc.doc.contents.findIdx? (fun entry => entry.1 = epoch) := by
    intro epoch
    rw [Keychain.keys, List.findIdx?_map]
    rfl
  split at h
  · cases h
  · dsimp only at h
    rw [hkeys, hkeys] at h
    split at h
    · rename_i i j hi hj
      rw [entriesSince_eq_drop hi, entriesSince_eq_drop hj]
      exact List.drop_subset_drop_left _ (of_decide_eq_true h).le
    · cases h

/-- In every mode the current key is shown. -/
theorem mem_shown_of_getLast? {entries : List (E × K)} {entry : E × K}
    (h : entries.getLast? = some entry) (visibility : HistoryVisibility)
    (epoch : Option E) : entry ∈ shownEntries visibility epoch entries := by
  have hcurrent : entry ∈ entries.getLast?.toList := by
    rw [h]
    exact List.mem_cons_self
  cases visibility with
  | fullHistory => exact List.mem_of_getLast? h
  | currentOnly => exact hcurrent
  | sinceInvited =>
      cases epoch with
      | none => exact hcurrent
      | some epoch =>
          rw [← getLast?_entriesSince entries epoch] at h
          exact List.mem_of_getLast? h

theorem shown_subset {entries : List (E × K)} {epoch epoch' : E}
    (h : entriesSince entries epoch' ⊆ entriesSince entries epoch)
    (visibility : HistoryVisibility) :
    shownEntries visibility (some epoch') entries ⊆
      shownEntries visibility (some epoch) entries := by
  cases visibility with
  | fullHistory => exact List.Subset.refl _
  | currentOnly => exact List.Subset.refl _
  | sinceInvited => exact h

/-- The history since an epoch: what stands at or behind an entry of it, or
everything if there is none. -/
theorem mem_entriesSince_iff {d : PushDoc (E × K)}
    (hkeys : (d.log.map CausalOp.id).Nodup) {epoch : E} {entry : E × K} :
    entry ∈ entriesSince d.contents epoch ↔ ∃ op ∈ d.log, op.content = entry ∧
      ((∀ op' ∈ d.log, op'.content.1 ≠ epoch) ∨
        ∃ op' ∈ d.log, op'.content.1 = epoch ∧
          op'.position ≤ op.position) := by
  have htail : ∀ entry, entry ∈ d.contents.dropWhile
      (fun entry => entry.1 ≠ epoch) ↔ ∃ op ∈ d.log, op.content = entry ∧
        ∃ op' ∈ d.log, op'.content.1 = epoch ∧
          op'.position ≤ op.position := by
    intro entry
    rw [CausalLog.contents, List.dropWhile_map, List.mem_map]
    constructor
    · rintro ⟨op, hop, hcontent⟩
      obtain ⟨hlog, first, hfirst, hboundary, hle⟩ :=
        (CausalLog.mem_dropWhile_visible hkeys).1 hop
      exact ⟨op, hlog, hcontent, first, hfirst, by simpa using hboundary, hle⟩
    · rintro ⟨op, hlog, hcontent, first, hfirst, hboundary, hle⟩
      refine ⟨op, ?_, hcontent⟩
      apply (CausalLog.mem_dropWhile_visible hkeys).2
      exact ⟨hlog, first, hfirst, by simpa using hboundary, hle⟩
  by_cases hnil : d.contents.dropWhile (fun entry => entry.1 ≠ epoch) = []
  · have hnone : ∀ op ∈ d.log, op.content.1 ≠ epoch := by
      intro op hop hboundary
      have hmem := (htail op.content).2 ⟨op, hop, rfl, op, hop, hboundary,
        le_rfl⟩
      rw [hnil] at hmem
      cases hmem
    rw [entriesSince_eq_self hnil, CausalLog.mem_contents]
    refine exists_congr fun op => and_congr_right fun _ => ?_
    exact (and_iff_left (Or.inl hnone)).symm
  · obtain ⟨op, hop, _, first, hfirst, hboundary, -⟩ :=
      (htail _).1 (List.head_mem hnil)
    rw [entriesSince_eq_dropWhile hnil, htail]
    refine exists_congr fun op => and_congr_right fun _ =>
      and_congr_right fun _ => ?_
    rw [or_iff_right]
    exact fun hnone => hnone first hfirst hboundary

/-- Where a list gets no operation for a key, and none for the boundary that
stands before one, the key is not shown if it was not. -/
theorem ne_of_mem_shown {d d' : PushDoc (E × K)} {k : K}
    {visibility : HistoryVisibility} {epoch : Option E}
    (hids : (d.log.map CausalOp.id).Nodup)
    (hids' : (d'.log.map CausalOp.id).Nodup) (hsub : d.log ⊆ d'.log)
    (hold : ∀ op ∈ d'.log, op.content.2 = k → op ∈ d.log)
    (hboundary : visibility = .sinceInvited → ∀ e ∈ epoch,
      ∀ op ∈ d.log, op.content.2 = k → ∀ op' ∈ d'.log,
        op'.content.1 = e → op'.position ≤ op.position → op' ∈ d.log)
    (hshown : ∀ entry ∈ shownEntries visibility epoch d.contents, entry.2 ≠ k) :
    ∀ entry ∈ shownEntries visibility epoch d'.contents, entry.2 ≠ k := by
  have hlast : ∀ entry ∈ d'.contents.getLast?.toList, entry.2 ≠ k := by
    rintro entry hentry rfl
    obtain ⟨op, hop, rfl⟩ := Option.map_eq_some_iff.1
      ((CausalLog.getLast?_contents _).symm.trans (Option.mem_toList.1 hentry))
    have hmem : op ∈ d.log := hold op
      (CausalLog.mem_visible.1 (List.mem_of_getLast? hop)) rfl
    have hbefore := CausalLog.getLast?_visible_of_subset hids' hsub hop hmem
    refine hshown op.content (mem_shown_of_getLast? ?_ _ _) rfl
    rw [CausalLog.getLast?_contents, hbefore]
    rfl
  cases visibility with
  | currentOnly => exact hlast
  | fullHistory =>
      rintro entry hentry rfl
      obtain ⟨op, hop, rfl⟩ := CausalLog.mem_contents.1 hentry
      apply hshown op.content
      · exact CausalLog.mem_contents.2 ⟨op, hold op hop rfl, rfl⟩
      · rfl
  | sinceInvited =>
      cases epoch with
      | none => exact hlast
      | some epoch =>
          rintro entry hentry rfl
          obtain ⟨op, hop, rfl, hbehind⟩ := (mem_entriesSince_iff hids').1 hentry
          have hmem : op ∈ d.log := hold op hop rfl
          apply hshown op.content
          · apply (mem_entriesSince_iff hids).2
            refine ⟨op, hmem, rfl, ?_⟩
            rcases hbehind with hnone | ⟨op', hop', hepoch, hle⟩
            · exact Or.inl fun op' hop' => hnone op' (hsub hop')
            · exact Or.inr ⟨op', hboundary rfl epoch rfl op hmem rfl op' hop'
                hepoch hle, hepoch, hle⟩
          · rfl

theorem content_of_mem_historySince [DecidableEq K] {kc : Keychain E K}
    {flavour : Flavour} {opIds : ℕ → ℕ} {epoch : E}
    {change : List (PushOp (E × K))}
    (h : kc.historySince flavour epoch opIds = .ok change)
    {op : PushOp (E × K)} (hop : op ∈ change) :
    op ∈ kc.doc.pending ∨ op.content ∈ entriesSince kc.doc.contents epoch := by
  rw [Keychain.historySince] at h
  split at h
  · cases h
  · by_cases hnil : kc.doc.contents.dropWhile
        (fun entry => entry.1 ≠ epoch) = []
    · rw [hnil] at h
      obtain rfl := Except.ok.inj h
      rw [entriesSince_eq_self hnil]
      exact content_of_mem_history hop
    · rw [entriesSince_eq_dropWhile hnil]
      split at h
      · rename_i hempty
        exact absurd hempty hnil
      · obtain rfl := Except.ok.inj h
        exact Or.inr (content_mem_of_mem_slice hop)

end Shown

namespace KeyHolder

variable {U C E K : Type} [DecidableEq E] {m : KeyHolder U C E K}

/-- What a member without such a key to show sends does not have it. -/
theorem Hides.not_mem {k : K} (h : m.Hides k) {op : PushOp (E × K)}
    (hop : op ∈ m.keys.pending ∨ op.content ∈ m.disclosed) :
    op.content.2 ≠ k := by
  rcases hop with hop | hop
  · exact h.pending op hop
  · exact h.disclosed _ hop

variable [DecidableEq K]

/-- A response carries what is disclosed, and what is pending. -/
theorem content_of_mem_forVisibility {opIds : ℕ → ℕ}
    {change : List (PushOp (E × K))}
    (h : m.document.keychainChangesForVisibility m.providers opIds =
      .ok change) {op : PushOp (E × K)} (hop : op ∈ change) :
    op ∈ m.keys.pending ∨ op.content ∈ m.disclosed := by
  rw [CollabswarmDocument.keychainChangesForVisibility] at h
  rw [disclosed]
  split at h
  · rename_i hvisibility
    obtain rfl := Except.ok.inj h
    rw [hvisibility]
    exact content_of_mem_history hop
  · rename_i hvisibility
    rw [hvisibility]
    split at h
    · rename_i hepoch
      rw [hepoch]
      exact Or.inr (content_of_mem_currentKeyChange h hop)
    · rename_i epoch hepoch
      rw [hepoch]
      exact content_of_mem_historySince h hop
  · rename_i hvisibility
    rw [hvisibility]
    exact Or.inr (content_of_mem_currentKeyChange h hop)

/-- So does a Welcome. -/
theorem content_of_mem_forWelcome {opIds : ℕ → ℕ}
    {change : List (PushOp (E × K))}
    (h : m.document.keychainChangesForWelcome m.providers opIds =
      .ok change) {op : PushOp (E × K)} (hop : op ∈ change) :
    op ∈ m.keys.pending ∨ op.content ∈ m.disclosed := by
  rw [CollabswarmDocument.keychainChangesForWelcome] at h
  split at h
  · rename_i hvisibility
    obtain rfl := Except.ok.inj h
    rw [disclosed, hvisibility]
    exact content_of_mem_history hop
  · have hlast := content_of_mem_currentKeyChange h hop
    exact Or.inr (mem_shown_of_getLast? (Option.mem_toList.1 hlast) _ _)
  · have hlast := content_of_mem_currentKeyChange h hop
    exact Or.inr (mem_shown_of_getLast? (Option.mem_toList.1 hlast) _ _)

/-! ### What one member does -/

omit [DecidableEq K] in
theorem Hides.withKeychain {k : K} (h : m.Hides k) {kc : Keychain E K}
    (hwf : kc.WellFormed) (hpending : ∀ op ∈ kc.doc.pending, op.content.2 ≠ k)
    (hsub : m.keys.log ⊆ kc.doc.log)
    (hold : ∀ op ∈ kc.doc.log, op.content.2 = k → op ∈ m.keys.log)
    (hboundary : m.providers.historyVisibility = .sinceInvited →
      ∀ e ∈ m.document.invitationEpoch, ∀ op ∈ m.keys.log,
        op.content.2 = k → ∀ op' ∈ kc.doc.log, op'.content.1 = e →
          op'.position ≤ op.position → op' ∈ m.keys.log) :
    (m.withKeychain kc).Hides k ∧ ((m.withKeychain kc).Holds k ↔ m.Holds k) := by
  refine ⟨⟨hwf, hpending, ?_⟩, ?_, ?_⟩
  · exact ne_of_mem_shown h.wellFormed.doc.nodup_log hwf.doc.nodup_log hsub
      hold hboundary h.disclosed
  · rintro ⟨entry, hentry, rfl⟩
    obtain ⟨op, hop, rfl⟩ := CausalLog.mem_contents.1 hentry
    exact ⟨op.content, CausalLog.mem_contents.2 ⟨op, hold op hop rfl, rfl⟩, rfl⟩
  · rintro ⟨entry, hentry, hk⟩
    obtain ⟨op, hop, rfl⟩ := CausalLog.mem_contents.1 hentry
    exact ⟨op.content, CausalLog.mem_contents.2 ⟨op, hsub hop, rfl⟩, hk⟩

omit [DecidableEq K] in
/-- A new key is put behind all others. -/
theorem Hides.rotate {k : K} (h : m.Hides k) {a : Keychain.Addition E K}
    (hentry : a.entry.2 ≠ k) (hnew : m.document.keychain.NewNumber a.opId) :
    let result := a.run m.providers.keychain m.document.keychain
    ((m.withKeychain result.1).Hides k ∧
      ((m.withKeychain result.1).Holds k ↔ m.Holds k)) ∧
      ∀ op ∈ result.2, op.content.2 ≠ k := by
  intro result
  obtain ⟨⟨cache, hrun⟩, hchange⟩ :=
    a.run_spec m.providers.keychain m.document.keychain
  set added := m.document.keychain.entryOp m.providers.keychain a.opId a.entry
    with hadded
  have hlog : result.1.doc.log = m.keys.log ++ [added] := by
    rw [show result.1 = _ from hrun]
    rfl
  have hpending : result.1.doc.pending = m.keys.pending := by
    rw [show result.1 = _ from hrun]
    rfl
  have hcontent : added.content = a.entry := rfl
  refine ⟨h.withKeychain ?_ ?_ ?_ ?_ ?_, ?_⟩
  · exact Keychain.Addition.run_wellFormed h.wellFormed _ hnew
  · rw [hpending]
    exact h.pending
  · rw [hlog]
    exact List.subset_append_left _ _
  · intro op hop hk
    rw [hlog] at hop
    rcases List.mem_append.1 hop with hop | hop
    · exact hop
    · rw [List.mem_singleton.1 hop, hcontent] at hk
      exact absurd hk hentry
  · intro _ e _ op hop _ op' hop' _ hle
    rw [hlog] at hop'
    rcases List.mem_append.1 hop' with hop' | hop'
    · exact hop'
    · rw [List.mem_singleton.1 hop'] at hle
      exact absurd (CausalLog.lt_position_pushOp hop _ _ _) (not_lt_of_ge hle)
  · intro op hop
    rcases hchange op hop with rfl | hop
    · exact hentry
    · exact h.pending op hop

/-- A merged change without the key leaves what stands before the current key,
or before the boundary, where it is. -/
theorem Hides.merge {k : K} (h : m.Hides k) {change : List (PushOp (E × K))}
    (hchange : ∀ op ∈ change, op.content.2 ≠ k)
    (hboundary : m.Holds k → m.KeepsBoundary change) :
    (m.withKeychain (m.document.keychain.merge change)).Hides k ∧
      ((m.withKeychain (m.document.keychain.merge change)).Holds k ↔
        m.Holds k) := by
  obtain ⟨⟨applied, hlog⟩, hall, -, -, -⟩ := m.keys.receive_spec change
  have hwf := h.wellFormed.merge change
  have hsub : m.keys.log ⊆ (m.keys.receive change).log := by
    rw [hlog]
    exact List.subset_append_left _ _
  have hknown : ∀ op ∈ (m.keys.receive change).all, op ∈ m.keys.log ∨
      op ∈ m.keys.pending ++ change := by
    intro op hop
    rcases hall op hop with hop | hop
    · rcases List.mem_append.1 hop with hop | hop
      · exact Or.inl hop
      · exact Or.inr (List.mem_append_left _ hop)
    · exact Or.inr (List.mem_append_right _ hop)
  have hnew : ∀ op ∈ m.keys.pending ++ change, op.content.2 ≠ k := by
    intro op hop
    rcases List.mem_append.1 hop with hop | hop
    · exact h.pending op hop
    · exact hchange op hop
  have hold : ∀ op ∈ (m.keys.receive change).log, op.content.2 = k →
      op ∈ m.keys.log := by
    intro op hop hk
    rcases hknown op (List.mem_append_left _ hop) with hop | hop
    · exact hop
    · exact absurd hk (hnew op hop)
  refine h.withKeychain hwf ?_ hsub hold ?_
  · intro op hop
    rcases hknown op (List.mem_append_right _ hop) with hmem | hmem
    · have hnodup := hwf.doc.nodup.of_map
      exact absurd hop (List.disjoint_of_nodup_append hnodup (hsub hmem))
    · exact hnew op hmem
  · intro hvisibility e he op hop hk op' hop' hepoch _
    rcases hknown op' (List.mem_append_left _ hop') with hmem | hmem
    · exact hmem
    · have hholds : m.Holds k :=
        ⟨op.content, CausalLog.mem_contents.2 ⟨op, hop, rfl⟩, hk⟩
      obtain ⟨same, hsame, hid⟩ := List.mem_map.1
        (hboundary hholds hvisibility e he op' hmem hepoch)
      have heq : same = op' := hwf.doc.eq_of_id_eq
        (List.mem_append_left _ (hsub hsame)) (List.mem_append_left _ hop') hid
      exact heq ▸ hsame

/-- The boundary only moves towards the end of the list. -/
theorem Hides.recordInvitationEpoch {k : K} (h : m.Hides k) {epochId : E}
    (hfirst : m.document.invitationEpoch = none →
      ∀ entry ∈ ({ m with document := { m.document with
        invitationEpoch := some epochId } } : KeyHolder U C E K).disclosed,
        entry.2 ≠ k) :
    (m.recordInvitationEpoch epochId).Hides k := by
  obtain ⟨cache, invitationEpoch, heq⟩ :=
    m.document.recordInvitationEpoch_eq epochId
  refine ⟨?_, ?_, ?_⟩
  · rw [KeyHolder.recordInvitationEpoch, heq]
    exact h.wellFormed.cache cache
  · rw [KeyHolder.recordInvitationEpoch, heq]
    exact h.pending
  · rcases hepoch : m.document.invitationEpoch with _ | existing
    · have hnew := hfirst hepoch
      rw [KeyHolder.recordInvitationEpoch,
        CollabswarmDocument.recordInvitationEpoch, hepoch]
      exact hnew
    · intro entry hentry
      have hkeys : (m.recordInvitationEpoch epochId).keys = m.keys := by
        rw [KeyHolder.recordInvitationEpoch, heq]
        rfl
      have hadvanced :
          (m.recordInvitationEpoch epochId).document.invitationEpoch =
            if (CollabswarmDocument.shouldAdvanceInvitationEpoch
              m.document.keychain existing epochId).1 then some epochId
            else some existing := by
        rw [KeyHolder.recordInvitationEpoch,
          CollabswarmDocument.recordInvitationEpoch, hepoch]
      apply h.disclosed
      rw [KeyHolder.disclosed, hkeys, hadvanced] at hentry
      rw [KeyHolder.disclosed, hepoch]
      split at hentry
      · rename_i hadvance
        exact shown_subset (entriesSince_subset_of_advanced hadvance) _ hentry
      · exact hentry

omit [DecidableEq K] in
theorem Hides.setHistoryVisibility {k : K} (h : m.Hides k)
    {value : HistoryVisibility}
    (hvalue : ∀ entry ∈ (m.setHistoryVisibility value).disclosed,
      entry.2 ≠ k) : (m.setHistoryVisibility value).Hides k :=
  ⟨h.wellFormed, h.pending, hvalue⟩

theorem holds_recordInvitationEpoch {k : K} {epochId : E} :
    (m.recordInvitationEpoch epochId).Holds k ↔ m.Holds k := by
  obtain ⟨cache, invitationEpoch, heq⟩ :=
    m.document.recordInvitationEpoch_eq epochId
  rw [Holds, KeyHolder.recordInvitationEpoch, heq]
  rfl

end KeyHolder

namespace KeyExchange

variable {U C E K : Type} [DecidableEq E] [DecidableEq K]
  {s : KeyExchange U C E K}

omit [DecidableEq E] [DecidableEq K] in
theorem exists_holds_set {k : K} {r : ℕ} {m m' : KeyHolder U C E K}
    (hm : s.members[r]? = some m) (hholds : m'.Holds k ↔ m.Holds k) (i : ℕ) :
    (∃ m ∈ (s.members.set r m')[i]?, m.Holds k) ↔
      ∃ m ∈ s.members[i]?, m.Holds k := by
  by_cases hi : r = i
  · subst hi
    obtain ⟨hr, -⟩ := List.getElem?_eq_some_iff.1 hm
    simpa [List.getElem?_set_self hr, hm] using hholds
  · rw [List.getElem?_set_ne hi]

omit [DecidableEq K] in
/-- A member does something, and may send a change. -/
theorem Hidden.set {k : K} (h : s.Hidden k) {r : ℕ} {m m' : KeyHolder U C E K}
    (hm : s.members[r]? = some m)
    (hm' : m'.Hides k ∧ (m'.Holds k ↔ m.Holds k))
    {changes : List (List (PushOp (E × K)))}
    (hchanges : ∀ change ∈ changes, ∀ op ∈ change, op.content.2 ≠ k) :
    (⟨s.members.set r m', changes⟩ : KeyExchange U C E K).Hidden k ∧
      ∀ i : ℕ, (∃ m ∈ (s.members.set r m')[i]?, m.Holds k) ↔
        ∃ m ∈ s.members[i]?, m.Holds k := by
  refine ⟨⟨?_, hchanges⟩, exists_holds_set hm hm'.2⟩
  intro member hmember
  rcases List.mem_or_eq_of_mem_set hmember with hmember | rfl
  · exact h.members member hmember
  · exact hm'.1

omit [DecidableEq K] in
theorem Hidden.append {k : K} (h : s.Hidden k)
    {change : List (PushOp (E × K))}
    (hchange : ∀ op ∈ change, op.content.2 ≠ k) :
    ∀ change' ∈ s.changes ++ [change], ∀ op ∈ change', op.content.2 ≠ k := by
  intro change' hmem
  rcases List.mem_append.1 hmem with hmem | hmem
  · exact h.changes change' hmem
  · rw [List.mem_singleton.1 hmem]
    exact hchange

omit [DecidableEq K] in
theorem Hidden.send {k : K} (h : s.Hidden k)
    {result : Except KeychainError (List (PushOp (E × K)))}
    (hresult : ∀ change, result = .ok change →
      ∀ op ∈ change, op.content.2 ≠ k) :
    (s.send result).Hidden k ∧ (s.send result).members = s.members := by
  cases result with
  | ok change => exact ⟨⟨h.members, h.append (hresult change rfl)⟩, rfl⟩
  | error e => exact ⟨h, rfl⟩

theorem Hidden.step {k : K} (h : s.Hidden k) {event : KeyExchangeEvent E K}
    (hevent : s.KeepsHidden k event) :
    (s.step event).Hidden k ∧ ∀ i : ℕ,
      (∃ m ∈ (s.step event).members[i]?, m.Holds k) ↔
        ∃ m ∈ s.members[i]?, m.Holds k := by
  have hnothing : s.Hidden k ∧ ∀ i : ℕ,
      (∃ m ∈ s.members[i]?, m.Holds k) ↔ ∃ m ∈ s.members[i]?, m.Holds k :=
    ⟨h, fun _ => Iff.rfl⟩
  have hmember : ∀ {r : ℕ} {m : KeyHolder U C E K}, s.members[r]? = some m →
      m.Hides k := fun hm => h.members _ (List.mem_of_getElem? hm)
  cases event with
  | rotate r a =>
      rw [KeyExchange.step]
      split
      · rename_i m hm
        obtain ⟨hrotate, hchange⟩ :=
          (hmember hm).rotate hevent.1 (hevent.2 m hm)
        exact h.set hm hrotate (h.append hchange)
      · exact hnothing
  | respond r opIds =>
      rw [KeyExchange.step]
      split
      · rename_i m hm
        obtain ⟨hsend, hmembers⟩ := h.send fun change hchange op hop =>
          (hmember hm).not_mem (m.content_of_mem_forVisibility hchange hop)
        refine ⟨hsend, ?_⟩
        rw [hmembers]
        exact hnothing.2
      · exact hnothing
  | sendWelcome r opIds =>
      rw [KeyExchange.step]
      split
      · rename_i m hm
        obtain ⟨hsend, hmembers⟩ := h.send fun change hchange op hop =>
          (hmember hm).not_mem (m.content_of_mem_forWelcome hchange hop)
        refine ⟨hsend, ?_⟩
        rw [hmembers]
        exact hnothing.2
      · exact hnothing
  | merge r n =>
      rw [KeyExchange.step]
      split
      · rename_i m change hm hchange
        have hmerge := (hmember hm).merge
          (h.changes change (List.mem_of_getElem? hchange))
          (hevent m hm change hchange)
        exact h.set hm hmerge h.changes
      · exact hnothing
  | recordInvitationEpoch r epochId =>
      rw [KeyExchange.step]
      split
      · rename_i m hm
        have hrecord := (hmember hm).recordInvitationEpoch (hevent m hm)
        exact h.set hm ⟨hrecord, m.holds_recordInvitationEpoch⟩ h.changes
      · exact hnothing
  | setHistoryVisibility r value =>
      rw [KeyExchange.step]
      split
      · rename_i m hm
        have hset := (hmember hm).setHistoryVisibility (hevent m hm)
        exact h.set hm ⟨hset, Iff.rfl⟩ h.changes
      · exact hnothing

/-- The key is hidden, and its holders are those of an earlier state. -/
structure HiddenSince (s : KeyExchange U C E K) (k : K)
    (s' : KeyExchange U C E K) : Prop where
  hidden : s'.Hidden k
  holders : ∀ i : ℕ, (∃ m ∈ s'.members[i]?, m.Holds k) ↔
    ∃ m ∈ s.members[i]?, m.Holds k

/-- A key that no member gives away, and that no message has, is not given away
in the run either: those who hold it at the end are those who held it at the
start. -/
theorem hidden_key_stays_hidden (s : KeyExchange U C E K) (k : K)
    (events : List (KeyExchangeEvent E K)) (hhidden : s.Hidden k)
    (hevents : Guarded KeyExchange.step (KeepsHidden k) s events) :
    (exec KeyExchange.step s events).Hidden k ∧ ∀ i : ℕ,
      (∃ m ∈ (exec KeyExchange.step s events).members[i]?, m.Holds k) ↔
        ∃ m ∈ s.members[i]?, m.Holds k := by
  have hkeep : ∀ (s' : KeyExchange U C E K) (event : KeyExchangeEvent E K),
      HiddenSince s k s' → s'.KeepsHidden k event →
        HiddenSince s k (s'.step event) := by
    intro s' event h hevent
    obtain ⟨hstep, hsame⟩ := h.hidden.step hevent
    exact ⟨hstep, fun i => (hsame i).trans (h.holders i)⟩
  have hrun := exec_invariant hkeep events s ⟨hhidden, fun _ => Iff.rfl⟩ hevents
  exact ⟨hrun.hidden, hrun.holders⟩

end KeyExchange

/-! ## A founder and a newcomer -/

/-- A founder who shows the current key only, with two keys. -/
def keyFounder : KeyHolder ℕ ℕ ℕ ℕ where
  providers := numberedProviders
  document :=
    let new : CollabswarmDocument ℕ ℕ ℕ ℕ := .new 0
    { new with keychain := (Keychain.oneKey.add .yjs 2 11 101).1 }

/-- A member without keys. -/
def keyNewcomer : KeyHolder ℕ ℕ ℕ ℕ := ⟨numberedProviders, .new 1⟩

theorem keyFounder_hides : keyFounder.Hides 100 where
  wellFormed := by
    refine Keychain.Addition.run_wellFormed (a := .add 2 11 101)
      Keychain.oneKey_wellFormed .yjs ?_
    exact Keychain.oneKey_numbersUnique.additions_new _ List.mem_cons_self
  pending := by decide
  disclosed := by decide

theorem keyFounder_newNumber : keyFounder.document.keychain.NewNumber 3 := by
  refine Keychain.NewNumber.run (a := .add 2 11 101) Keychain.oneKey_wellFormed
    .yjs ?_ (by decide)
  exact Keychain.oneKey_numbersUnique.additions_new (.addEpochKey 3 12 102)
    (List.mem_cons_of_mem _ List.mem_cons_self)

theorem keyNewcomer_hides : keyNewcomer.Hides 100 :=
  ⟨Keychain.new_wellFormed, by decide, by decide⟩

/-- The founder answers the newcomer and rotates, and the newcomer merges
both. -/
def joinThenRotate : List (KeyExchangeEvent ℕ ℕ) :=
  [.respond 0 fun n => 50 + n, .merge 1 0, .rotate 0 (.addEpochKey 3 12 102),
    .merge 1 1]

/-- The newcomer does not get the founder's first key. -/
theorem hidden_key_stays_hidden_newcomer :
    ¬ ∃ m ∈ (exec KeyExchange.step
      (⟨[keyFounder, keyNewcomer], []⟩ : KeyExchange ℕ ℕ ℕ ℕ)
      joinThenRotate).members[1]?, m.Holds 100 := by
  have hhidden : (⟨[keyFounder, keyNewcomer], []⟩ :
      KeyExchange ℕ ℕ ℕ ℕ).Hidden 100 := by
    refine ⟨?_, fun change hchange => absurd hchange List.not_mem_nil⟩
    intro m hm
    rcases List.mem_pair.1 hm with rfl | rfl
    · exact keyFounder_hides
    · exact keyNewcomer_hides
  rw [(KeyExchange.hidden_key_stays_hidden _ 100 joinThenRotate hhidden ?_).2 1]
  · rintro ⟨m, hm, hholds⟩
    obtain rfl := Option.some.inj hm
    exact absurd hholds (by decide)
  · refine ⟨trivial, ?_, ⟨by decide, ?_⟩, ?_, trivial⟩
    · rintro m hm change - - hvisibility
      obtain rfl := Option.some.inj hm
      exact absurd hvisibility (by decide)
    · rintro m hm
      obtain rfl := Option.some.inj hm
      exact keyFounder_newNumber
    · rintro m hm change - - hvisibility
      obtain rfl := Option.some.inj hm
      exact absurd hvisibility (by decide)

/-- With `since_invited` a copy of the boundary that comes to stand in front
shows the keys behind it. -/
example : 100 ∈ (shownEntries .sinceInvited (some 11)
    (keyFounder.document.keychain.merge ((Keychain.slice .yjs id
      [(11, 101)]).history .yjs)).doc.contents).map Prod.snd := by
  decide

end Collabswarm.Document
