import Collabswarm.Document.CollabswarmDocument
import Collabswarm.Support.Lists
import Collabswarm.Support.Transition

/-!
# The invitation epoch under concurrent Welcomes

`_evaluateAndApplyBeeKEMWelcome` after its gates, as it is interrupted at its
awaits.  The call reads `_invitationEpoch`, awaits the comparison with the epoch
of its Welcome and then assigns without a second look, so an assignment that
lands during the comparison is overwritten unseen.
-/

namespace Collabswarm.Document

open BeeKEM

/-- Where a call of `_evaluateAndApplyBeeKEMWelcome` awaits.  A comparison has
read `_invitationEpoch` when it had been assigned `writesSeen` times. -/
inductive WelcomeCall (U E K : Type) where
  | eciesOpen (message : WelcomeMessage U E K)
  | processWelcome (sk : PrivateKey) (beekemWelcome : Welcome)
      (welcomeEpochId : E)
  | shouldAdvance (existing welcomeEpochId : E) (advanced : Bool)
      (writesSeen : ℕ)
  | returned (applied : Bool)

/-- A document with all calls that handle an accepted Welcome.  `writes` lists
the epochs that were assigned to `_invitationEpoch`. -/
structure WelcomeHandling (U C E K : Type) where
  document : CollabswarmDocument U C E K
  calls : List (WelcomeCall U E K)
  writes : List E

/-- A Welcome passes the gates, a call goes on, what it awaits fails, or the
document does something else that concerns the calls. -/
inductive WelcomeHandlingEvent (U E K : Type) where
  | accept (message : WelcomeMessage U E K)
  | resume (call : ℕ)
  | fail (call : ℕ)
  | keychain (operation : Keychain.Operation E K)
  | setKemKeyPair (keyPair : Option PrivateKey)

/-- The order of `keys()`. -/
def keyOrder {U C E K : Type} (d : CollabswarmDocument U C E K) : List E :=
  d.keychain.doc.contents.map Prod.fst

/-- Both ids are in the list, the second one behind the first. -/
def Later {E : Type} [DecidableEq E] (order : List E) (e e' : E) : Prop :=
  ∃ i j, order.findIdx? (· = e) = some i ∧
    order.findIdx? (· = e') = some j ∧ i < j

instance Later.decidable {E : Type} [DecidableEq E] (order : List E)
    (e e' : E) : Decidable (Later order e e') :=
  match hi : order.findIdx? (· = e), hj : order.findIdx? (· = e') with
  | some i, some j => decidable_of_iff (i < j)
      ⟨fun h => ⟨i, j, hi, hj, h⟩, by
        rintro ⟨i', j', hi', hj', h⟩
        cases hi.symm.trans hi'
        cases hj.symm.trans hj'
        exact h⟩
  | none, _ => isFalse (by
      rintro ⟨i', -, hi', -⟩
      cases hi.symm.trans hi')
  | _, none => isFalse (by
      rintro ⟨-, j', -, hj', -⟩
      cases hj.symm.trans hj')

namespace WelcomeHandling

section Model

variable {U C E K : Type} [DecidableEq E] [DecidableEq K]

/-- A document before the Welcomes. -/
def start (d : CollabswarmDocument U C E K) : WelcomeHandling U C E K :=
  ⟨d, [], []⟩

/-- Assign the epoch of call `i`, which then returns. -/
def assign (s : WelcomeHandling U C E K) (i : ℕ) (welcomeEpochId : E) :
    WelcomeHandling U C E K where
  document := { s.document with invitationEpoch := some welcomeEpochId }
  calls := s.calls.set i (.returned true)
  writes := s.writes ++ [welcomeEpochId]

/-- Call `i` comes to the update of the epoch. -/
def recordEpoch (s : WelcomeHandling U C E K) (i : ℕ) (welcomeEpochId : E) :
    WelcomeHandling U C E K :=
  match s.document.invitationEpoch with
  | none => s.assign i welcomeEpochId
  | some existing =>
      let (advanced, keychain) :=
        CollabswarmDocument.shouldAdvanceInvitationEpoch s.document.keychain
          existing welcomeEpochId
      { s with
        document := { s.document with keychain }
        calls := s.calls.set i
          (.shouldAdvance existing welcomeEpochId advanced s.writes.length) }

/-- Call `i` goes on with the opened payload.  Without a KEM key pair the
bootstrap throws, which is logged only. -/
def afterOpen (s : WelcomeHandling U C E K) (i : ℕ)
    (message : WelcomeMessage U E K) : WelcomeHandling U C E K :=
  let s := { s with
    document := { s.document with
      keychain := s.document.keychain.merge message.keychainChanges } }
  match message.beekemWelcome, s.document.kemKeyPair with
  | some beekemWelcome, some sk =>
      { s with
        calls := s.calls.set i
          (.processWelcome sk beekemWelcome message.welcomeEpochId) }
  | _, _ => s.recordEpoch i message.welcomeEpochId

/-- The first part of a call: it needs the KEM key pair that the Welcome
names. -/
def accepted (d : CollabswarmDocument U C E K)
    (message : WelcomeMessage U E K) : WelcomeCall U E K :=
  match d.kemKeyPair with
  | none => .returned false
  | some sk =>
      if sk.publicKey ≠ message.welcomeRecipientKemPublicKey then
        .returned false
      else .eciesOpen message

/-- One event. -/
def step (flavour : Flavour) (s : WelcomeHandling U C E K) :
    WelcomeHandlingEvent U E K → WelcomeHandling U C E K
  | .accept message =>
      { s with calls := s.calls ++ [accepted s.document message] }
  | .resume i =>
      match s.calls[i]? with
      | some (.eciesOpen message) => s.afterOpen i message
      | some (.processWelcome sk beekemWelcome welcomeEpochId) =>
          let s := { s with
            document := s.document.bootstrap sk (some beekemWelcome) }
          s.recordEpoch i welcomeEpochId
      | some (.shouldAdvance _ welcomeEpochId true _) =>
          s.assign i welcomeEpochId
      | some (.shouldAdvance _ _ false _) =>
          { s with calls := s.calls.set i (.returned true) }
      | _ => s
  | .fail i =>
      match s.calls[i]? with
      | some (.eciesOpen _) =>
          { s with calls := s.calls.set i (.returned false) }
      | some (.processWelcome _ _ welcomeEpochId) =>
          s.recordEpoch i welcomeEpochId
      | some (.shouldAdvance _ _ _ _) =>
          { s with calls := s.calls.set i (.returned true) }
      | _ => s
  | .keychain operation =>
      { s with
        document := { s.document with
          keychain := Keychain.step flavour s.document.keychain operation } }
  | .setKemKeyPair keyPair =>
      { s with document := s.document.setKemKeyPair keyPair }

/-- The order of the keychain is appended to at most. -/
def AppendOnly (flavour : Flavour) (s : WelcomeHandling U C E K)
    (event : WelcomeHandlingEvent U E K) : Prop :=
  keyOrder s.document <+: keyOrder (s.step flavour event).document

/-- Where the event changes a defined invitation epoch, the new one stands
later. -/
def MovesForward (flavour : Flavour) (s : WelcomeHandling U C E K)
    (event : WelcomeHandlingEvent U E K) : Prop :=
  ∀ e e', s.document.invitationEpoch = some e →
    (s.step flavour event).document.invitationEpoch = some e' → e' ≠ e →
    Later (keyOrder (s.step flavour event).document) e e'

/-- A call that is about to assign its epoch was not overtaken: since it read
`_invitationEpoch`, no epoch that stands later than its own was assigned. -/
def NotOvertaken (s : WelcomeHandling U C E K) :
    WelcomeHandlingEvent U E K → Prop
  | .resume i => ∀ existing welcomeEpochId writesSeen,
      s.calls[i]? =
        some (.shouldAdvance existing welcomeEpochId true writesSeen) →
      ∀ e ∈ s.writes.drop writesSeen,
        ¬Later (keyOrder s.document) welcomeEpochId e
  | _ => True

instance AppendOnly.decidable (flavour : Flavour)
    (s : WelcomeHandling U C E K) (event : WelcomeHandlingEvent U E K) :
    Decidable (s.AppendOnly flavour event) :=
  inferInstanceAs (Decidable (_ <+: _))

instance MovesForward.decidable (flavour : Flavour)
    (s : WelcomeHandling U C E K) (event : WelcomeHandlingEvent U E K) :
    Decidable (s.MovesForward flavour event) :=
  decidable_of_iff
    (∀ e ∈ s.document.invitationEpoch,
      ∀ e' ∈ (s.step flavour event).document.invitationEpoch,
        e' ≠ e → Later (keyOrder (s.step flavour event).document) e e')
    ⟨fun h e e' he he' => h e he e' he', fun h e he e' he' => h e e' he he'⟩

instance NotOvertaken.decidable (s : WelcomeHandling U C E K)
    (event : WelcomeHandlingEvent U E K) :
    Decidable (s.NotOvertaken event) :=
  match event with
  | .resume i =>
      match hcall : s.calls[i]? with
      | some (.shouldAdvance _ e true writesSeen) =>
          decidable_of_iff
            (∀ e' ∈ s.writes.drop writesSeen,
              ¬Later (keyOrder s.document) e e')
            ⟨fun h existing' e' writesSeen' hcall' => by
                cases hcall.symm.trans hcall'
                exact h,
              fun h => h _ e writesSeen hcall⟩
      | some (.shouldAdvance _ _ false _) =>
          isTrue (by simp [NotOvertaken, hcall])
      | some (.eciesOpen _) => isTrue (by simp [NotOvertaken, hcall])
      | some (.processWelcome _ _ _) => isTrue (by simp [NotOvertaken, hcall])
      | some (.returned _) => isTrue (by simp [NotOvertaken, hcall])
      | none => isTrue (by simp [NotOvertaken, hcall])
  | .accept _ | .fail _ | .keychain _ | .setKemKeyPair _ => isTrue trivial

end Model

end WelcomeHandling

/-! ## Positions in the order -/

section Order

variable {E : Type} [DecidableEq E] {order order' : List E} {a b c : E}

theorem findIdx?_of_append (hfront : order <+: order') {i : ℕ}
    (h : order.findIdx? (· = a) = some i) :
    order'.findIdx? (· = a) = some i := by
  obtain ⟨rest, rfl⟩ := hfront
  rw [List.findIdx?_append, h]
  rfl

theorem Later.mono (hfront : order <+: order') (h : Later order a b) :
    Later order' a b := by
  obtain ⟨i, j, hi, hj, hlt⟩ := h
  exact ⟨i, j, findIdx?_of_append hfront hi,
    findIdx?_of_append hfront hj, hlt⟩

theorem Later.trans (h : Later order a b) (h' : Later order b c) :
    Later order a c := by
  obtain ⟨i, j, hi, hj, hlt⟩ := h
  obtain ⟨j', k, hj', hk, hlt'⟩ := h'
  obtain rfl := Option.some.inj (hj.symm.trans hj')
  exact ⟨i, k, hi, hk, hlt.trans hlt'⟩

theorem Later.asymm (h : Later order a b) : ¬Later order b a := by
  rintro ⟨j', i', hj', hi', hlt'⟩
  obtain ⟨i, j, hi, hj, hlt⟩ := h
  obtain rfl := Option.some.inj (hj.symm.trans hj')
  obtain rfl := Option.some.inj (hi.symm.trans hi')
  omega

theorem Later.irrefl : ¬Later order a a := fun h => h.asymm h

/-- An id at a position is the one that is found there. -/
theorem eq_of_findIdx? {i : ℕ} (ha : order.findIdx? (· = a) = some i)
    (hb : order.findIdx? (· = b) = some i) : a = b := by
  obtain ⟨_, heq, -⟩ := List.findIdx?_eq_some_iff_getElem.1 ha
  obtain ⟨_, heq', -⟩ := List.findIdx?_eq_some_iff_getElem.1 hb
  exact (of_decide_eq_true heq).symm.trans (of_decide_eq_true heq')

/-- Of two ids in the list one stands later, unless they are the same. -/
theorem later_of_not_later (ha : (order.findIdx? (· = a)).isSome)
    (hb : (order.findIdx? (· = b)).isSome) (hne : a ≠ b)
    (h : ¬Later order b a) : Later order a b := by
  obtain ⟨i, hi⟩ := Option.isSome_iff_exists.1 ha
  obtain ⟨j, hj⟩ := Option.isSome_iff_exists.1 hb
  have hij : i ≠ j := by
    rintro rfl
    exact hne (eq_of_findIdx? hi hj)
  have hle : ¬j < i := fun hlt => h ⟨j, i, hj, hi, hlt⟩
  exact ⟨i, j, hi, hj, by omega⟩

end Order

/-- The comparison changes the cache of the keychain at most. -/
theorem contents_shouldAdvance {E K : Type} [DecidableEq E] [DecidableEq K]
    (keychain : Keychain E K) (existing incoming : E) :
    (CollabswarmDocument.shouldAdvanceInvitationEpoch keychain existing
      incoming).2.doc = keychain.doc := by
  rw [CollabswarmDocument.shouldAdvanceInvitationEpoch]
  split
  · rfl
  · dsimp only
    split <;> rfl

/-- An epoch that the comparison lets advance stands later. -/
theorem later_of_shouldAdvance {E K : Type} [DecidableEq E] [DecidableEq K]
    {keychain : Keychain E K} {existing incoming : E}
    (h : (CollabswarmDocument.shouldAdvanceInvitationEpoch keychain existing
      incoming).1 = true) :
    Later (keychain.doc.contents.map Prod.fst) existing incoming := by
  have hids : (keychain.keys.1.map Prod.fst) =
      keychain.doc.contents.map Prod.fst := by
    simp [Keychain.keys, Keychain.importEntry]
  have hfind : ∀ id : E, keychain.keys.1.findIdx? (fun entry => entry.1 = id) =
      (keychain.doc.contents.map Prod.fst).findIdx? (· = id) := by
    intro id
    rw [← hids, List.findIdx?_map]
    rfl
  rw [CollabswarmDocument.shouldAdvanceInvitationEpoch] at h
  split at h
  · cases h
  · dsimp only at h
    split at h
    · rename_i i j hi hj
      exact ⟨i, j, by rw [← hfind, hi], by rw [← hfind, hj],
        of_decide_eq_true h⟩
    · cases h

theorem CollabswarmDocument.invitationEpoch_bootstrap {U C E K : Type}
    (d : CollabswarmDocument U C E K) (sk : PrivateKey)
    (welcome : Option Welcome) :
    (d.bootstrap sk welcome).invitationEpoch = d.invitationEpoch := by
  cases welcome with
  | none => rfl
  | some welcome =>
      rw [CollabswarmDocument.bootstrap]
      split <;> rfl

namespace WelcomeHandling

section Steps

variable {U C E K : Type} [DecidableEq E] [DecidableEq K]

/-- A comparison that a call awaits. -/
def Comparing (s : WelcomeHandling U C E K) (i : ℕ)
    (existing welcomeEpochId : E) (advanced : Bool) (writesSeen : ℕ) : Prop :=
  s.calls[i]? = some (.shouldAdvance existing welcomeEpochId advanced writesSeen)

/-- From `s` to `s'` the epoch stays or gets its first value, and every
comparison was awaited already or has just read the epoch. -/
structure Quiet (s s' : WelcomeHandling U C E K) : Prop where
  epoch : (s'.document.invitationEpoch = s.document.invitationEpoch ∧
      s'.writes = s.writes) ∨
    s.document.invitationEpoch = none ∧
      ∃ e, s'.document.invitationEpoch = some e ∧ s'.writes = s.writes ++ [e]
  comparisons : ∀ i existing e advanced writesSeen,
    s'.Comparing i existing e advanced writesSeen →
    s.Comparing i existing e advanced writesSeen ∨
      s'.document.invitationEpoch = some existing ∧
        writesSeen = s'.writes.length ∧
        (advanced = true → Later (keyOrder s'.document) existing e)

omit [DecidableEq E] [DecidableEq K] in
theorem comparing_set {s : WelcomeHandling U C E K} {i j : ℕ}
    {call : WelcomeCall U E K} {d : CollabswarmDocument U C E K}
    {writes : List E} {existing e : E} {advanced : Bool} {writesSeen : ℕ}
    (h : Comparing ⟨d, s.calls.set i call, writes⟩ j existing e advanced
      writesSeen) :
    call = .shouldAdvance existing e advanced writesSeen ∨
      s.Comparing j existing e advanced writesSeen := by
  rcases getElem?_set_cases h with ⟨-, hcall⟩ | hold
  · exact Or.inl hcall.symm
  · exact Or.inr hold

omit [DecidableEq K] in
/-- A call goes on and does not compare. -/
theorem quiet_set (s : WelcomeHandling U C E K) (i : ℕ)
    {call : WelcomeCall U E K} {d : CollabswarmDocument U C E K}
    (hepoch : d.invitationEpoch = s.document.invitationEpoch)
    (hcall : ∀ existing e advanced writesSeen,
      call ≠ .shouldAdvance existing e advanced writesSeen) :
    Quiet s ⟨d, s.calls.set i call, s.writes⟩ where
  epoch := Or.inl ⟨hepoch, rfl⟩
  comparisons := by
    intro j existing e advanced writesSeen h
    rcases comparing_set h with hnew | hold
    · exact absurd hnew (hcall existing e advanced writesSeen)
    · exact Or.inl hold

/-- A call comes to the update of the epoch, perhaps with another document. -/
theorem quiet_recordEpoch (s : WelcomeHandling U C E K)
    {d : CollabswarmDocument U C E K}
    (hd : d.invitationEpoch = s.document.invitationEpoch) (i : ℕ) (e : E) :
    Quiet s (recordEpoch { s with document := d } i e) := by
  rw [recordEpoch]
  dsimp only
  split
  · rename_i hepoch
    refine ⟨Or.inr ⟨hd ▸ hepoch, e, rfl, rfl⟩, ?_⟩
    intro j existing e' advanced writesSeen h
    rcases comparing_set h with hcall | hold
    · cases hcall
    · exact Or.inl hold
  · rename_i existing hepoch
    refine ⟨Or.inl ⟨hd, rfl⟩, ?_⟩
    intro j existing' e' advanced writesSeen h
    rcases comparing_set h with hcall | hold
    · cases hcall
      refine Or.inr ⟨hepoch, rfl, fun hadvanced => ?_⟩
      rw [keyOrder]
      dsimp only
      rw [contents_shouldAdvance]
      exact later_of_shouldAdvance hadvanced
    · exact Or.inl hold

theorem quiet_afterOpen (s : WelcomeHandling U C E K) (i : ℕ)
    (message : WelcomeMessage U E K) : Quiet s (s.afterOpen i message) := by
  rw [afterOpen]
  dsimp only
  split
  · exact s.quiet_set i rfl (by simp)
  · exact s.quiet_recordEpoch (d := { s.document with
      keychain := s.document.keychain.merge message.keychainChanges }) rfl i _

/-- Every event is quiet, or a call whose comparison has ended assigns its
epoch. -/
theorem step_cases (flavour : Flavour) (s : WelcomeHandling U C E K)
    (event : WelcomeHandlingEvent U E K) :
    (Quiet s (s.step flavour event) ∧
      ∀ i existing e writesSeen, event = .resume i →
        ¬s.Comparing i existing e true writesSeen) ∨
    ∃ i existing e writesSeen, event = .resume i ∧
      s.Comparing i existing e true writesSeen ∧
      s.step flavour event = s.assign i e := by
  have hsame : ∀ d : CollabswarmDocument U C E K,
      d.invitationEpoch = s.document.invitationEpoch →
      Quiet s { s with document := d } := fun d hd =>
    ⟨Or.inl ⟨hd, rfl⟩, fun _ _ _ _ _ h => Or.inl h⟩
  cases event with
  | accept message =>
      refine Or.inl ⟨⟨Or.inl ⟨rfl, rfl⟩, ?_⟩, by simp⟩
      intro j existing e advanced writesSeen h
      rcases getElem?_concat h with ⟨-, hold⟩ | ⟨-, hnew⟩
      · exact Or.inl hold
      · rw [accepted] at hnew
        split at hnew
        · cases hnew
        · split at hnew <;> cases hnew
  | resume i =>
      have hother : (∀ existing e writesSeen,
          ¬s.Comparing i existing e true writesSeen) →
          ∀ j existing e writesSeen,
            (WelcomeHandlingEvent.resume i : WelcomeHandlingEvent U E K) =
              .resume j → ¬s.Comparing j existing e true writesSeen := by
        rintro h j existing e writesSeen ⟨⟩
        exact h existing e writesSeen
      rcases hcall : s.calls[i]? with _ | ⟨message⟩ | ⟨sk, welcome, e⟩ |
        ⟨existing, e, _ | _, writesSeen⟩ | ⟨applied⟩
      · exact Or.inl ⟨by simpa [step, hcall] using hsame _ rfl,
          hother (by simp [Comparing, hcall])⟩
      · exact Or.inl ⟨by simpa [step, hcall] using s.quiet_afterOpen i message,
          hother (by simp [Comparing, hcall])⟩
      · refine Or.inl ⟨?_, hother (by simp [Comparing, hcall])⟩
        simpa [step, hcall] using s.quiet_recordEpoch
          (s.document.invitationEpoch_bootstrap sk (some welcome)) i e
      · refine Or.inl ⟨?_, hother (by simp [Comparing, hcall])⟩
        simpa [step, hcall] using s.quiet_set i rfl (by simp)
      · exact Or.inr ⟨i, existing, e, writesSeen, rfl, hcall,
          by simp [step, hcall]⟩
      · exact Or.inl ⟨by simpa [step, hcall] using hsame _ rfl,
          hother (by simp [Comparing, hcall])⟩
  | fail i =>
      refine Or.inl ⟨?_, by simp⟩
      rw [step]
      split
      · exact s.quiet_set i rfl (by simp)
      · exact s.quiet_recordEpoch rfl i _
      · exact s.quiet_set i rfl (by simp)
      · exact hsame _ rfl
  | keychain operation => exact Or.inl ⟨hsame _ rfl, by simp⟩
  | setKemKeyPair keyPair => exact Or.inl ⟨hsame _ rfl, by simp⟩

/-- Every epoch that was assigned is the current one or stands before it.  The
current one is what a comparison is with, or was assigned since it read. -/
structure Ordered (s : WelcomeHandling U C E K) : Prop where
  unset : s.document.invitationEpoch = none → s.writes = []
  writes : ∀ current, s.document.invitationEpoch = some current →
    ∀ e ∈ s.writes, e = current ∨ Later (keyOrder s.document) e current
  bounded : ∀ i existing e advanced writesSeen,
    s.Comparing i existing e advanced writesSeen →
    writesSeen ≤ s.writes.length
  ahead : ∀ i existing e writesSeen,
    s.Comparing i existing e true writesSeen →
    Later (keyOrder s.document) existing e
  current : ∀ i existing e advanced writesSeen,
    s.Comparing i existing e advanced writesSeen →
    ∃ current, s.document.invitationEpoch = some current ∧
      (current = existing ∨ current ∈ s.writes.drop writesSeen)
  listed : ∀ i existing e advanced writesSeen,
    s.Comparing i existing e advanced writesSeen →
    ∀ e' ∈ s.writes.drop writesSeen,
      ((keyOrder s.document).findIdx? (· = e')).isSome

omit [DecidableEq K] in
theorem start_ordered (d : CollabswarmDocument U C E K) :
    (start d).Ordered where
  unset := fun _ => rfl
  writes := by simp [start]
  bounded := by simp [start, Comparing]
  ahead := by simp [start, Comparing]
  current := by simp [start, Comparing]
  listed := by simp [start, Comparing]

omit [DecidableEq K] in
/-- The epoch stays, and the order of the keys may grow. -/
theorem Ordered.same_epoch {s s' : WelcomeHandling U C E K} (h : s.Ordered)
    (hfront : keyOrder s.document <+: keyOrder s'.document)
    (hquiet : Quiet s s')
    (hepoch : s'.document.invitationEpoch = s.document.invitationEpoch)
    (hwrites : s'.writes = s.writes) : s'.Ordered := by
  refine ⟨?_, ?_, ?_, ?_, ?_, ?_⟩
  · intro hnone
    rw [hwrites]
    exact h.unset (hepoch ▸ hnone)
  · intro current hcurrent e he
    rw [hwrites] at he
    rw [hepoch] at hcurrent
    exact (h.writes current hcurrent e he).imp_right fun hlater =>
      hlater.mono hfront
  · intro i existing e advanced writesSeen hcall
    rcases hquiet.comparisons i existing e advanced writesSeen hcall with
      hold | ⟨-, hseen, -⟩
    · rw [hwrites]
      exact h.bounded i existing e advanced writesSeen hold
    · exact hseen.le
  · intro i existing e writesSeen hcall
    rcases hquiet.comparisons i existing e true writesSeen hcall with
      hold | ⟨-, -, hlater⟩
    · exact (h.ahead i existing e writesSeen hold).mono hfront
    · exact hlater rfl
  · intro i existing e advanced writesSeen hcall
    rcases hquiet.comparisons i existing e advanced writesSeen hcall with
      hold | ⟨hread, -, -⟩
    · rw [hwrites, hepoch]
      exact h.current i existing e advanced writesSeen hold
    · exact ⟨existing, hread, Or.inl rfl⟩
  · intro i existing e advanced writesSeen hcall e' he'
    rcases hquiet.comparisons i existing e advanced writesSeen hcall with
      hold | ⟨-, hseen, -⟩
    · rw [hwrites] at he'
      obtain ⟨j, hj⟩ := Option.isSome_iff_exists.1
        (h.listed i existing e advanced writesSeen hold e' he')
      rw [findIdx?_of_append hfront hj]
      rfl
    · rw [hseen, List.drop_length] at he'
      cases he'

omit [DecidableEq K] in
/-- The first epoch is assigned, so no comparison was awaited before. -/
theorem Ordered.first_epoch {s s' : WelcomeHandling U C E K} (h : s.Ordered)
    (hquiet : Quiet s s') (hnone : s.document.invitationEpoch = none) {e : E}
    (hepoch : s'.document.invitationEpoch = some e)
    (hwrites : s'.writes = s.writes ++ [e]) : s'.Ordered := by
  have hwrites' : s'.writes = [e] := by
    rw [hwrites, h.unset hnone]
    rfl
  have hread : ∀ i existing e' advanced writesSeen,
      s'.Comparing i existing e' advanced writesSeen →
      s'.document.invitationEpoch = some existing ∧
        writesSeen = s'.writes.length ∧
        (advanced = true → Later (keyOrder s'.document) existing e') := by
    intro i existing e' advanced writesSeen hcall
    rcases hquiet.comparisons i existing e' advanced writesSeen hcall with
      hold | hnew
    · obtain ⟨current, hcurrent, -⟩ :=
        h.current i existing e' advanced writesSeen hold
      rw [hnone] at hcurrent
      cases hcurrent
    · exact hnew
  refine ⟨?_, ?_, ?_, ?_, ?_, ?_⟩
  · intro hnone'
    rw [hepoch] at hnone'
    cases hnone'
  · intro current hcurrent e' he'
    rw [hepoch, Option.some.injEq] at hcurrent
    rw [hwrites', List.mem_singleton] at he'
    exact Or.inl (he'.trans hcurrent)
  · intro i existing e' advanced writesSeen hcall
    exact (hread i existing e' advanced writesSeen hcall).2.1.le
  · intro i existing e' writesSeen hcall
    exact (hread i existing e' true writesSeen hcall).2.2 rfl
  · intro i existing e' advanced writesSeen hcall
    exact ⟨existing, (hread i existing e' advanced writesSeen hcall).1,
      Or.inl rfl⟩
  · intro i existing e' advanced writesSeen hcall e'' he''
    rw [(hread i existing e' advanced writesSeen hcall).2.1,
      List.drop_length] at he''
    cases he''

omit [DecidableEq K] in
theorem Ordered.quiet {s s' : WelcomeHandling U C E K} (h : s.Ordered)
    (hfront : keyOrder s.document <+: keyOrder s'.document)
    (hquiet : Quiet s s') : s'.Ordered := by
  rcases hquiet.epoch with ⟨hepoch, hwrites⟩ | ⟨hnone, e, hepoch, hwrites⟩
  · exact h.same_epoch hfront hquiet hepoch hwrites
  · exact h.first_epoch hquiet hnone hepoch hwrites

omit [DecidableEq K] in
/-- The epoch that a call assigns stands behind the current one, or is that
one, exactly if no later one was assigned since the call read. -/
theorem Ordered.forward_iff {s : WelcomeHandling U C E K} (h : s.Ordered)
    {i : ℕ} {existing e : E} {writesSeen : ℕ}
    (hcall : s.Comparing i existing e true writesSeen) :
    (∀ current, s.document.invitationEpoch = some current → e ≠ current →
      Later (keyOrder s.document) current e) ↔
    ∀ e' ∈ s.writes.drop writesSeen, ¬Later (keyOrder s.document) e e' := by
  have hahead := h.ahead i existing e writesSeen hcall
  constructor
  · intro hforward e' he' hlater
    obtain ⟨current, hcurrent, -⟩ :=
      h.current i existing e true writesSeen hcall
    have hafter : Later (keyOrder s.document) e current := by
      rcases h.writes current hcurrent e' (List.mem_of_mem_drop he') with
        rfl | hbefore
      · exact hlater
      · exact hlater.trans hbefore
    by_cases heq : e = current
    · subst heq
      exact Later.irrefl hafter
    · exact hafter.asymm (hforward current hcurrent heq)
  · intro hnot current hcurrent hne
    obtain ⟨current', hcurrent', hwhich⟩ :=
      h.current i existing e true writesSeen hcall
    obtain rfl := Option.some.inj (hcurrent.symm.trans hcurrent')
    rcases hwhich with rfl | hmem
    · exact hahead
    · obtain ⟨-, j, -, hj, -⟩ := hahead
      have hlisted := h.listed i existing e true writesSeen hcall current hmem
      exact later_of_not_later hlisted (by rw [hj]; rfl) (Ne.symm hne)
        (hnot current hmem)

omit [DecidableEq K] in
/-- A call assigns an epoch that stands behind the current one. -/
theorem Ordered.assign {s : WelcomeHandling U C E K} (h : s.Ordered)
    {i : ℕ} {existing e : E} {writesSeen : ℕ}
    (hcall : s.Comparing i existing e true writesSeen)
    (hforward : ∀ current, s.document.invitationEpoch = some current →
      e ≠ current → Later (keyOrder s.document) current e) :
    (s.assign i e).Ordered := by
  have hold : ∀ j existing' e' advanced writesSeen',
      (s.assign i e).Comparing j existing' e' advanced writesSeen' →
      s.Comparing j existing' e' advanced writesSeen' := by
    intro j existing' e' advanced writesSeen' h'
    rcases comparing_set h' with hreturned | hold
    · cases hreturned
    · exact hold
  have hdrop : ∀ j existing' e' advanced writesSeen',
      s.Comparing j existing' e' advanced writesSeen' →
      (s.assign i e).writes.drop writesSeen' =
        s.writes.drop writesSeen' ++ [e] := fun j existing' e' advanced _ hj =>
    List.drop_append_of_le_length (h.bounded j existing' e' advanced _ hj)
  obtain ⟨current, hcurrent, -⟩ :=
    h.current i existing e true writesSeen hcall
  constructor
  · intro hnone
    cases hnone
  · intro current' hcurrent' e' he'
    cases hcurrent'
    rcases List.mem_append.1 he' with hbefore | hnew
    · by_cases heq : e = current
      · rw [heq]
        exact h.writes current hcurrent e' hbefore
      · have hlater := hforward current hcurrent heq
        rcases h.writes current hcurrent e' hbefore with rfl | hlater'
        · exact Or.inr hlater
        · exact Or.inr (hlater'.trans hlater)
    · exact Or.inl (List.mem_singleton.1 hnew)
  · intro j existing' e' advanced writesSeen' hj
    have hle := h.bounded j existing' e' advanced writesSeen'
      (hold j existing' e' advanced writesSeen' hj)
    exact hle.trans (by simp [WelcomeHandling.assign])
  · intro j existing' e' writesSeen' hj
    exact h.ahead j existing' e' writesSeen' (hold j existing' e' true _ hj)
  · intro j existing' e' advanced writesSeen' hj
    refine ⟨e, rfl, Or.inr ?_⟩
    rw [hdrop j existing' e' advanced writesSeen' (hold j _ _ _ _ hj)]
    simp
  · intro j existing' e' advanced writesSeen' hj e'' he''
    rw [hdrop j existing' e' advanced writesSeen' (hold j _ _ _ _ hj)] at he''
    rcases List.mem_append.1 he'' with hbefore | hnew
    · exact h.listed j existing' e' advanced writesSeen' (hold j _ _ _ _ hj)
        e'' hbefore
    · obtain ⟨-, k, -, hk, -⟩ := h.ahead i existing e writesSeen hcall
      rw [List.mem_singleton.1 hnew]
      exact Option.isSome_of_eq_some hk

/-- However accepted Welcomes interleave at their awaits, over a keychain whose
order is appended to only: the invitation epoch moves forward in every step if
and only if no call assigns its epoch after it was overtaken. -/
theorem invitationEpoch_forward_iff (flavour : Flavour)
    (d : CollabswarmDocument U C E K)
    (events : List (WelcomeHandlingEvent U E K))
    (happend : Guarded (step flavour) (AppendOnly flavour) (start d) events) :
    Guarded (step flavour) (MovesForward flavour) (start d) events ↔
      Guarded (step flavour) NotOvertaken (start d) events := by
  refine guarded_iff_guarded ?_ ?_ events (start d) (start_ordered d) happend
  · intro s event h _
    rcases s.step_cases flavour event with ⟨hquiet, hevent⟩ |
      ⟨i, existing, e, writesSeen, rfl, hcall, hstep⟩
    · refine iff_of_true ?_ ?_
      · intro e e' he he' hne
        rcases hquiet.epoch with ⟨hepoch, -⟩ | ⟨hnone, -⟩
        · rw [hepoch, he] at he'
          exact absurd (Option.some.inj he').symm hne
        · rw [hnone] at he
          cases he
      · cases event with
        | resume i =>
            intro existing e writesSeen hcall
            exact absurd hcall (hevent i existing e writesSeen rfl)
        | _ => trivial
    · -- the assignment: both sides speak of the one call that is resumed
      have hforward : s.MovesForward flavour (.resume i) ↔
          ∀ current, s.document.invitationEpoch = some current →
            e ≠ current → Later (keyOrder s.document) current e := by
        rw [MovesForward, hstep]
        constructor
        · intro h' current hcurrent hne
          exact h' current e hcurrent rfl hne
        · rintro h' current e' hcurrent ⟨⟩ hne
          exact h' current hcurrent hne
      have hovertaken : s.NotOvertaken (.resume i) ↔
          ∀ e' ∈ s.writes.drop writesSeen,
            ¬Later (keyOrder s.document) e e' := by
        constructor
        · intro h'
          exact h' existing e writesSeen hcall
        · intro h' existing' e' writesSeen' hcall'
          cases Option.some.inj (hcall.symm.trans hcall')
          exact h'
      rw [hforward, hovertaken]
      exact h.forward_iff hcall
  · intro s event h hfront hforward
    rcases s.step_cases flavour event with ⟨hquiet, -⟩ |
      ⟨i, existing, e, writesSeen, rfl, hcall, hstep⟩
    · exact h.quiet hfront hquiet
    · rw [hstep]
      refine h.assign hcall fun current hcurrent hne => ?_
      rw [MovesForward, hstep] at hforward
      exact hforward current e hcurrent rfl hne

end Steps

/-! ### Two Welcomes at the same time -/

/-- User 1 before its first Welcome. -/
def newReader : CollabswarmDocument ℕ ℕ ℕ ℕ :=
  (CollabswarmDocument.new 1).setKemKeyPair (some ⟨4⟩)

/-- A Welcome for user 1, whose keys have arrived another way. -/
def welcomeToEpoch (epochId : ℕ) : WelcomeMessage ℕ ℕ ℕ :=
  ⟨epochId, 1, (PrivateKey.mk 4).publicKey, [], none⟩

/-- The keys of three epochs arrive, the Welcome to the first one is applied,
and those to the second and third compare their epoch with it. -/
def twoComparing : List (WelcomeHandlingEvent ℕ ℕ ℕ) :=
  [.keychain (.addEpochKey 1 1 10), .keychain (.addEpochKey 2 2 20),
    .keychain (.addEpochKey 3 3 30), .accept (welcomeToEpoch 1), .resume 0,
    .accept (welcomeToEpoch 2), .resume 1, .accept (welcomeToEpoch 3),
    .resume 2]

/-- The two assign in turn. -/
theorem invitationEpoch_forward_twoComparing :
    Guarded (step .yjs) (AppendOnly .yjs) (start newReader)
      (twoComparing ++ [.resume 1, .resume 2]) ∧
    Guarded (step .yjs) (MovesForward .yjs) (start newReader)
      (twoComparing ++ [.resume 1, .resume 2]) := by
  have happend : Guarded (step .yjs) (AppendOnly .yjs) (start newReader)
      (twoComparing ++ [.resume 1, .resume 2]) := by
    decide +kernel
  refine ⟨happend, (invitationEpoch_forward_iff .yjs newReader _ happend).2 ?_⟩
  decide +kernel

/-- The third epoch is assigned first, and the second one overwrites it. -/
theorem invitationEpoch_overtaken :
    Guarded (step .yjs) (AppendOnly .yjs) (start newReader)
      (twoComparing ++ [.resume 2, .resume 1]) ∧
    ¬Guarded (step .yjs) (MovesForward .yjs) (start newReader)
      (twoComparing ++ [.resume 2, .resume 1]) := by
  decide +kernel

end WelcomeHandling

end Collabswarm.Document
