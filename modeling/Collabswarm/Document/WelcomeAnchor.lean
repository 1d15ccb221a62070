import Collabswarm.Document.CollabswarmDocument
import Collabswarm.Keychain.Bootstrap
import Collabswarm.Keychain.Lookup
import Collabswarm.Keychain.Numbered
import Collabswarm.Support.Lists

/-!
# The key a Welcome is anchored to

`_sendBeeKEMWelcome` as it is interrupted at its awaits.  It reads the id of
the current key, awaits that and the serialization of the reader's public key,
and then reads the keychain changes.  A key that is added in between is the
only one in the changes, unless the whole history is sent, while the Welcome
names the key before it.
-/

namespace Collabswarm.Document

open BeeKEM

section Model

variable {U C E K : Type}

/-- The arguments of `_sendBeeKEMWelcome`. -/
structure SendRequest (U : Type) where
  reader : U
  readerKemPublicKey : RawKey
  beekemWelcome : Option Welcome
deriving DecidableEq

/-- Where a call of `_sendBeeKEMWelcome` awaits: the current key, the reader's
serialized public key, or the sealing and the signature of its Welcome. -/
inductive SendCall (U E K : Type) where
  | current (request : SendRequest U) (currentKeyID : E)
  | serializePublicKey (request : SendRequest U) (welcomeEpochId : E)
  | sealing (message : WelcomeMessage U E K)
  | sent (message : WelcomeMessage U E K)
  | failed
deriving DecidableEq

/-- A document with all calls that send a Welcome. -/
structure WelcomeSending (U C E K : Type) where
  document : CollabswarmDocument U C E K
  calls : List (SendCall U E K)

/-- `addReader` comes to its Welcome, a call goes on, what it awaits fails, or
the keychain is used or changed by something else.  A keychain delta that the
call reads numbers its operations by `opIds`. -/
inductive WelcomeSendingEvent (U E K : Type) where
  | send (request : SendRequest U)
  | resume (call : ℕ) (opIds : ℕ → ℕ)
  | fail (call : ℕ)
  | keychain (operation : Keychain.Operation E K)

/-- The Welcome that a call seals or has sent. -/
def SendCall.message : SendCall U E K → Option (WelcomeMessage U E K)
  | .sealing message => some message
  | .sent message => some message
  | _ => none

/-- The epoch that a call without a Welcome has read. -/
def SendCall.epoch : SendCall U E K → Option E
  | .current _ currentKeyID => some currentKeyID
  | .serializePublicKey _ welcomeEpochId => some welcomeEpochId
  | _ => none

variable [DecidableEq E] [DecidableEq K]

/-- A joiner that takes over the keys of the Welcome has the one it names. -/
def WelcomeMessage.Anchored (message : WelcomeMessage U E K) : Prop :=
  message.welcomeEpochId ∈
    (Keychain.new.merge message.keychainChanges).doc.contents.map Prod.fst

instance (message : WelcomeMessage U E K) : Decidable message.Anchored :=
  inferInstanceAs (Decidable (_ ∈ _))

namespace WelcomeSending

/-- `_sendBeeKEMWelcome` up to its first await. -/
def send (s : WelcomeSending U C E K) (request : SendRequest U) :
    WelcomeSending U C E K :=
  if request.readerKemPublicKey.byteLength ≠ eciesP256PublicKeyLength then
    { s with calls := s.calls ++ [.failed] }
  else
    match s.document.keychain.current with
    | (.error _, keychain) =>
        ⟨{ s.document with keychain }, s.calls ++ [.failed]⟩
    | (.ok (currentKeyID, _), keychain) =>
        ⟨{ s.document with keychain },
          s.calls ++ [.current request currentKeyID]⟩

/-- What follows the serialized public key: the keychain delta is read, and the
recipient's KEM key is imported. -/
def compose (p : Providers E K) (s : WelcomeSending U C E K)
    (request : SendRequest U) (welcomeEpochId : E) (opIds : ℕ → ℕ) :
    SendCall U E K :=
  match s.document.keychainChangesForWelcome p opIds,
      request.readerKemPublicKey.imported with
  | .ok keychainChanges, some recipientKemKey =>
      .sealing ⟨welcomeEpochId, request.reader, recipientKemKey,
        keychainChanges, request.beekemWelcome⟩
  | _, _ => .failed

/-- A waiting call goes on. -/
def goOn (p : Providers E K) (s : WelcomeSending U C E K) (opIds : ℕ → ℕ) :
    SendCall U E K → SendCall U E K
  | .current request currentKeyID => .serializePublicKey request currentKeyID
  | .serializePublicKey request welcomeEpochId =>
      s.compose p request welcomeEpochId opIds
  | .sealing message => .sent message
  | .sent message => .sent message
  | .failed => .failed

/-- One event. -/
def step (p : Providers E K) (s : WelcomeSending U C E K) :
    WelcomeSendingEvent U E K → WelcomeSending U C E K
  | .send request => s.send request
  | .resume i opIds =>
      { s with calls := s.calls.modify i (s.goOn p opIds) }
  | .fail i =>
      { s with
        calls := s.calls.modify i fun call =>
          match call with
          | .sent message => .sent message
          | _ => .failed }
  | .keychain operation =>
      { s with
        document := { s.document with
          keychain := Keychain.step p.keychain s.document.keychain
            operation } }

/-- Every Welcome that is being sealed or was sent is anchored. -/
def Anchored (s : WelcomeSending U C E K) : Prop :=
  ∀ call ∈ s.calls, ∀ message ∈ call.message, message.Anchored

/-- The step leaves only anchored Welcomes. -/
def StaysAnchored (p : Providers E K) (s : WelcomeSending U C E K)
    (event : WelcomeSendingEvent U E K) : Prop :=
  (s.step p event).Anchored

/-- The library numbers new operations of the keychain. -/
def NumbersNew (s : WelcomeSending U C E K) :
    WelcomeSendingEvent U E K → Prop
  | .keychain operation => s.document.keychain.NumbersNew operation
  | _ => True

/-- Where a call reads the keychain changes for a Welcome with a usable KEM
key, all keys are sent or the last key of the list is still the one that was
current. -/
def StillCurrent (p : Providers E K) (s : WelcomeSending U C E K) :
    WelcomeSendingEvent U E K → Prop
  | .resume i _ => ∀ request welcomeEpochId,
      s.calls[i]? = some (.serializePublicKey request welcomeEpochId) →
      request.readerKemPublicKey.imported ≠ none →
      p.historyVisibility = .fullHistory ∨
        s.document.keychain.doc.contents.getLast?.map Prod.fst =
          some welcomeEpochId
  | _ => True

end WelcomeSending

end Model

/-! ## What a joiner takes over -/

section Joiner

variable {E K : Type} [DecidableEq E] [DecidableEq K]

/-- A joiner that merges the history has the keys of the list. -/
theorem contents_merge_history {kc : Keychain E K} (h : kc.WellFormed)
    (flavour : Flavour) :
    (Keychain.new.merge (kc.history flavour)).doc.contents =
      kc.doc.contents :=
  (Keychain.attached_history h flavour).contents

/-- A joiner that merges the current key has that key only. -/
theorem contents_merge_slice (flavour : Flavour) (opIds : ℕ → ℕ)
    (entry : E × K) :
    (Keychain.new.merge ((Keychain.slice flavour opIds [entry]).history
      flavour)).doc.contents = [entry] := by
  have hslice : Keychain.slice flavour opIds [entry] =
      Keychain.new.pushEntry flavour (opIds 0) entry := by
    simp [Keychain.slice]
  have hnew : (Keychain.new : Keychain E K).NewNumber (opIds 0) :=
    fun op hop => absurd hop (List.not_mem_nil)
  rw [hslice, contents_merge_history
    (Keychain.new_wellFormed.pushEntry flavour hnew entry),
    Keychain.new_wellFormed.contents_pushEntry flavour hnew]
  rfl

/-- No operation takes a key off the list. -/
theorem contents_subset_step (flavour : Flavour) (kc : Keychain E K)
    (op : Keychain.Operation E K) :
    kc.doc.contents ⊆ (kc.step flavour op).doc.contents := by
  intro entry hentry
  cases op with
  | add opId keyId key =>
      exact Keychain.mem_contents_pushEntry.2 (Or.inl hentry)
  | addEpochKey opId epochId key =>
      exact Keychain.mem_contents_pushEntry.2 (Or.inl hentry)
  | merge change =>
      obtain ⟨op, hop, rfl⟩ := CausalLog.mem_contents.1 hentry
      obtain ⟨⟨applied, hlog⟩, -⟩ := kc.doc.receive_spec change
      refine CausalLog.mem_contents.2 ⟨op, ?_, rfl⟩
      rw [Keychain.step, Keychain.merge, hlog]
      exact List.mem_append_left _ hop
  | keys => exact hentry
  | current =>
      rw [Keychain.step, Keychain.current_doc]
      exact hentry
  | getKey keyId => exact hentry

end Joiner

namespace WelcomeSending

section Steps

variable {U C E K : Type} [DecidableEq E] [DecidableEq K]

/-- A Welcome that is put together is anchored exactly if all keys are sent or
the last key of the list has the id that was read. -/
theorem compose_anchored_iff (p : Providers E K) {s : WelcomeSending U C E K}
    (hwf : s.document.keychain.WellFormed) (request : SendRequest U)
    {welcomeEpochId : E} (opIds : ℕ → ℕ)
    (hepoch : welcomeEpochId ∈
      s.document.keychain.doc.contents.map Prod.fst) :
    (∀ message ∈ (s.compose p request welcomeEpochId opIds).message,
        message.Anchored) ↔
      (request.readerKemPublicKey.imported ≠ none →
        p.historyVisibility = .fullHistory ∨
          s.document.keychain.doc.contents.getLast?.map Prod.fst =
            some welcomeEpochId) := by
  rcases hkey : request.readerKemPublicKey.imported with _ | recipientKemKey
  · have hfailed : s.compose p request welcomeEpochId opIds = .failed := by
      rw [compose, hkey]
      rcases s.document.keychainChangesForWelcome p opIds with _ | _ <;> rfl
    rw [hfailed]
    exact iff_of_true (fun message h => (nomatch h)) fun h => absurd rfl h
  have hsealing : ∀ keychainChanges,
      s.document.keychainChangesForWelcome p opIds = .ok keychainChanges →
        ((∀ message ∈ (s.compose p request welcomeEpochId opIds).message,
          message.Anchored) ↔ welcomeEpochId ∈
            (Keychain.new.merge keychainChanges).doc.contents.map
              Prod.fst) := by
    intro keychainChanges hchanges
    rw [compose, hchanges, hkey]
    constructor
    · exact fun h => h _ rfl
    · rintro h _ ⟨rfl⟩
      exact h
  have hcurrent : p.historyVisibility ≠ .fullHistory →
      s.document.keychainChangesForWelcome p opIds =
        s.document.keychain.currentKeyChange p.keychain opIds := by
    intro hnot
    rw [CollabswarmDocument.keychainChangesForWelcome]
    cases hvisibility : p.historyVisibility with
    | fullHistory => exact absurd hvisibility hnot
    | sinceInvited => rfl
    | currentOnly => rfl
  by_cases hfull : p.historyVisibility = .fullHistory
  · have hchanges : s.document.keychainChangesForWelcome p opIds =
        .ok (s.document.keychain.history p.keychain) := by
      rw [CollabswarmDocument.keychainChangesForWelcome, hfull]
    rw [hsealing _ hchanges, contents_merge_history hwf]
    exact iff_of_true hepoch fun _ => Or.inl hfull
  · obtain ⟨entry, hlast⟩ : ∃ entry,
        s.document.keychain.doc.contents.getLast? = some entry := by
      refine Option.isSome_iff_exists.1 (List.getLast?_isSome.2 ?_)
      rintro hnil
      rw [hnil] at hepoch
      cases hepoch
    have hchanges : s.document.keychainChangesForWelcome p opIds =
        .ok ((Keychain.slice p.keychain opIds [entry]).history
          p.keychain) := by
      rw [hcurrent hfull, Keychain.currentKeyChange, hlast]
    rw [hsealing _ hchanges, contents_merge_slice, hlast]
    simp [hfull, eq_comm]

/-- What holds at the awaits: the epochs that were read are on the list. -/
structure Sending (s : WelcomeSending U C E K) : Prop where
  wellFormed : s.document.keychain.WellFormed
  anchored : s.Anchored
  listed : ∀ call ∈ s.calls, ∀ epoch ∈ call.epoch,
    epoch ∈ s.document.keychain.doc.contents.map Prod.fst

/-- A call without a Welcome comes. -/
theorem anchored_append {s : WelcomeSending U C E K} (h : s.Anchored)
    {d : CollabswarmDocument U C E K} {call : SendCall U E K}
    (hcall : call.message = none) :
    Anchored ⟨d, s.calls ++ [call]⟩ := by
  intro call' hcall' message hmessage
  rcases List.mem_append.1 hcall' with hold | hnew
  · exact h call' hold message hmessage
  · rw [List.mem_singleton.1 hnew, hcall] at hmessage
    cases hmessage

omit [DecidableEq K] in
/-- What `_sendBeeKEMWelcome` does before its first await. -/
theorem send_cases (s : WelcomeSending U C E K) (request : SendRequest U) :
    ∃ keychain call, s.send request =
        ⟨{ s.document with keychain }, s.calls ++ [call]⟩ ∧
      (s.document.keychain.WellFormed → keychain.WellFormed) ∧
      keychain.doc = s.document.keychain.doc ∧ call.message = none ∧
      ∀ epoch ∈ call.epoch,
        epoch ∈ s.document.keychain.doc.contents.map Prod.fst := by
  rw [send]
  split
  · exact ⟨s.document.keychain, .failed, rfl, id, rfl, rfl,
      fun _ h => (nomatch h)⟩
  have hdoc := s.document.keychain.current_doc
  have hfst := s.document.keychain.current_fst
  have hwf : s.document.keychain.WellFormed →
      s.document.keychain.current.2.WellFormed := by
    obtain ⟨cache, hcache⟩ := s.document.keychain.current_snd
    rw [hcache]
    exact fun h => h.cache cache
  rcases hcurrent : s.document.keychain.current with
    ⟨error | ⟨currentKeyID, key⟩, keychain⟩
  · rw [hcurrent] at hdoc hwf
    exact ⟨keychain, .failed, rfl, hwf, hdoc, rfl, fun _ h => (nomatch h)⟩
  · rw [hcurrent] at hdoc hfst hwf
    refine ⟨keychain, .current request currentKeyID, rfl, hwf, hdoc, rfl, ?_⟩
    rintro _ ⟨rfl⟩
    rcases hlast : s.document.keychain.doc.contents.getLast? with _ | entry
    · rw [hlast] at hfst
      cases hfst
    · rw [hlast] at hfst
      have hid : currentKeyID = entry.1 := by
        injection hfst with hentry
        exact congrArg Prod.fst hentry
      rw [hid]
      exact List.mem_map_of_mem (List.mem_of_getLast? hlast)

omit [DecidableEq E] [DecidableEq K] in
/-- A call that fails has no Welcome, or it has sent it. -/
theorem fail_spec (call : SendCall U E K) :
    (match call with
      | .sent message => .sent message
      | _ => .failed : SendCall U E K).message = none ∨
      (match call with
        | .sent message => .sent message
        | _ => .failed : SendCall U E K).message = call.message := by
  cases call with
  | sent message => exact Or.inr rfl
  | _ => exact Or.inl rfl

/-- A step of a call leaves only anchored Welcomes exactly if that call has
none or an anchored one. -/
theorem staysAnchored_resume_iff (p : Providers E K)
    {s : WelcomeSending U C E K} (h : s.Anchored) {i : ℕ} {opIds : ℕ → ℕ} :
    s.StaysAnchored p (.resume i opIds) ↔
      ∀ call ∈ s.calls[i]?, ∀ message ∈ (s.goOn p opIds call).message,
        message.Anchored := by
  constructor
  · intro hstays call hcall
    refine hstays (s.goOn p opIds call) ?_
    refine List.mem_of_getElem? (i := i) ?_
    rw [step, List.getElem?_modify, Option.mem_def.1 hcall]
    simp
  · intro hgo call hcall message hmessage
    rcases mem_modify_cases hcall with hold | ⟨call', hcall', rfl⟩
    · exact h call hold message hmessage
    · exact hgo call' hcall' message hmessage

/-- A call that fails leaves only anchored Welcomes. -/
theorem staysAnchored_fail (p : Providers E K) {s : WelcomeSending U C E K}
    (h : s.Anchored) (i : ℕ) : s.StaysAnchored p (.fail i) := by
  intro call hcall message hmessage
  rcases mem_modify_cases hcall with hold | ⟨call', hcall', rfl⟩
  · exact h call hold message hmessage
  · rcases fail_spec call' with hnone | hsame
    · rw [hnone] at hmessage
      cases hmessage
    · rw [hsame] at hmessage
      exact h call' (List.mem_of_getElem? hcall') message hmessage

omit [DecidableEq E] [DecidableEq K] in
/-- A call that does not read the keychain changes goes on with the Welcome it
has. -/
theorem message_goOn (p : Providers E K) (s : WelcomeSending U C E K)
    (opIds : ℕ → ℕ) {call : SendCall U E K}
    (hcall : ∀ request epoch, call ≠ .serializePublicKey request epoch) :
    (s.goOn p opIds call).message = call.message := by
  cases call with
  | serializePublicKey request epoch => exact absurd rfl (hcall request epoch)
  | _ => rfl

omit [DecidableEq E] [DecidableEq K] in
/-- Only a call that reads the keychain changes has a condition to meet. -/
theorem stillCurrent_resume (p : Providers E K) {s : WelcomeSending U C E K}
    {i : ℕ} {opIds : ℕ → ℕ}
    (hcalls : ∀ request epoch,
      s.calls[i]? ≠ some (.serializePublicKey request epoch)) :
    s.StillCurrent p (.resume i opIds) :=
  fun request epoch hserialize => absurd hserialize (hcalls request epoch)

/-- A step leaves only anchored Welcomes exactly if the key that a Welcome
names is still current when its keys are read. -/
theorem staysAnchored_iff (p : Providers E K) {s : WelcomeSending U C E K}
    {event : WelcomeSendingEvent U E K} (h : s.Sending) :
    s.StaysAnchored p event ↔ s.StillCurrent p event := by
  cases event with
  | send request =>
      refine iff_of_true ?_ trivial
      obtain ⟨keychain, call, hsend, -, -, hmessage, -⟩ := s.send_cases request
      rw [StaysAnchored, step, hsend]
      exact anchored_append h.anchored hmessage
  | keychain operation => exact iff_of_true h.anchored trivial
  | fail i => exact iff_of_true (staysAnchored_fail p h.anchored i) trivial
  | resume i opIds =>
      rw [staysAnchored_resume_iff p h.anchored]
      by_cases hserialize : ∃ request epoch,
          s.calls[i]? = some (.serializePublicKey request epoch)
      · obtain ⟨request, welcomeEpochId, hcall⟩ := hserialize
        have hcompose := compose_anchored_iff p h.wellFormed request opIds
          (h.listed _ (List.mem_of_getElem? hcall) _ rfl)
        constructor
        · intro hgo request' epoch' hserialize
          cases hcall.symm.trans hserialize
          exact hcompose.1 (hgo _ hcall)
        · intro hstill call hcall'
          cases hcall.symm.trans hcall'
          exact hcompose.2 (hstill request welcomeEpochId hcall)
      · push Not at hserialize
        refine iff_of_true ?_ (stillCurrent_resume p hserialize)
        intro call hcall message hmessage
        rw [message_goOn p s opIds fun request epoch heq =>
          hserialize request epoch (heq ▸ hcall)] at hmessage
        exact h.anchored call (List.mem_of_getElem? hcall) message hmessage

omit [DecidableEq E] [DecidableEq K] in
/-- An epoch that a call still has was read before. -/
theorem epoch_goOn (p : Providers E K) (s : WelcomeSending U C E K)
    (opIds : ℕ → ℕ) {call : SendCall U E K} {epoch : E}
    (h : epoch ∈ (s.goOn p opIds call).epoch) : epoch ∈ call.epoch := by
  cases call with
  | current request currentKeyID => exact h
  | serializePublicKey request welcomeEpochId =>
      rw [goOn, compose] at h
      split at h <;> cases h
  | sealing message => cases h
  | sent message => cases h
  | failed => cases h

theorem Sending.step (p : Providers E K) {s : WelcomeSending U C E K}
    {event : WelcomeSendingEvent U E K} (h : s.Sending)
    (hnumbers : s.NumbersNew event) (hstays : s.StaysAnchored p event) :
    (s.step p event).Sending := by
  cases event with
  | send request =>
      obtain ⟨keychain, call, hsend, hwf, hdoc, -, hepoch⟩ :=
        s.send_cases request
      rw [StaysAnchored] at hstays
      rw [WelcomeSending.step, hsend] at hstays ⊢
      refine ⟨hwf h.wellFormed, hstays, ?_⟩
      intro call' hcall' epoch hmem
      dsimp only
      rw [hdoc]
      rcases List.mem_append.1 hcall' with hold | hnew
      · exact h.listed call' hold epoch hmem
      · rw [List.mem_singleton.1 hnew] at hmem
        exact hepoch epoch hmem
  | keychain operation =>
      refine ⟨h.wellFormed.step p.keychain operation hnumbers, hstays, ?_⟩
      intro call hcall epoch hepoch
      exact List.map_subset _ (contents_subset_step p.keychain _ operation)
        (h.listed call hcall epoch hepoch)
  | fail i =>
      refine ⟨h.wellFormed, hstays, ?_⟩
      intro call hcall epoch hepoch
      rcases mem_modify_cases hcall with hold | ⟨call', -, rfl⟩
      · exact h.listed call hold epoch hepoch
      · cases call' <;> cases hepoch
  | resume i opIds =>
      refine ⟨h.wellFormed, hstays, ?_⟩
      intro call hcall epoch hepoch
      rcases mem_modify_cases hcall with hold | ⟨call', hcall', rfl⟩
      · exact h.listed call hold epoch hepoch
      · exact h.listed call' (List.mem_of_getElem? hcall') epoch
          (epoch_goOn p s opIds hepoch)

/-- In a run every Welcome carries the key it is anchored to exactly if, each
time the keychain changes for a Welcome are read, all keys are sent or the key
that it names is still the last one. -/
theorem welcomes_anchored_iff (p : Providers E K) (s : WelcomeSending U C E K)
    (events : List (WelcomeSendingEvent U E K)) (hcalls : s.calls = [])
    (hkeychain : s.document.keychain.WellFormed)
    (hnumbers : Guarded (step p) NumbersNew s events) :
    Guarded (step p) (StaysAnchored p) s events ↔
      Guarded (step p) (StillCurrent p) s events := by
  have hstart : s.Sending := by
    refine ⟨hkeychain, ?_, ?_⟩
    · intro call hcall
      rw [hcalls] at hcall
      cases hcall
    · intro call hcall
      rw [hcalls] at hcall
      cases hcall
  have hexact : ∀ (s : WelcomeSending U C E K) event, s.Sending →
      s.NumbersNew event →
        (s.StaysAnchored p event ↔ s.StillCurrent p event) :=
    fun s event hsending _ => staysAnchored_iff p hsending
  have hkeep : ∀ (s : WelcomeSending U C E K) event, s.Sending →
      s.NumbersNew event → s.StaysAnchored p event →
        (s.step p event).Sending :=
    fun s event hsending hnew hstays => hsending.step p hnew hstays
  exact guarded_iff_guarded hexact hkeep events s hstart hnumbers

/-- A call that is not interrupted sends the Welcome of the model without
awaits. -/
theorem send_alone (p : Providers E K) (d : CollabswarmDocument U C E K)
    (request : SendRequest U) (opIds opIds' opIds'' : ℕ → ℕ)
    (hlength : request.readerKemPublicKey.byteLength =
      eciesP256PublicKeyLength) :
    exec (step p) ⟨d, []⟩ [.send request, .resume 0 opIds', .resume 0 opIds,
        .resume 0 opIds''] =
      ⟨(d.sendBeeKEMWelcome p request.reader request.readerKemPublicKey
          request.beekemWelcome opIds).1,
        [((d.sendBeeKEMWelcome p request.reader request.readerKemPublicKey
          request.beekemWelcome opIds).2.map SendCall.sent).getD .failed]⟩ := by
  simp only [exec_cons, exec_nil, step, send, hlength, ne_eq,
    not_true_eq_false, if_false, CollabswarmDocument.sendBeeKEMWelcome]
  rcases d.keychain.current with ⟨error | ⟨currentKeyID, key⟩, keychain⟩
  · rfl
  · simp only [List.nil_append, List.modify_zero_cons, goOn, compose]
    rcases CollabswarmDocument.keychainChangesForWelcome p
      { d with keychain } opIds with error | keychainChanges
    · rfl
    · rcases request.readerKemPublicKey.imported with _ | recipientKemKey
      · rfl
      · rfl

end Steps

/-! ## Runs -/

/-- A founder with one key, before any Welcome. -/
def founder : WelcomeSending ℕ ℕ ℕ ℕ :=
  ⟨{ (CollabswarmDocument.new 0 : CollabswarmDocument ℕ ℕ ℕ ℕ) with
      keychain := (Keychain.new.addEpochKey .yjs 0 10 100).1 }, []⟩

/-- A Welcome to reader 7. -/
def toReader : SendRequest ℕ := ⟨7, rawKey ⟨3⟩, none⟩

theorem founder_wellFormed : founder.document.keychain.WellFormed :=
  (@Keychain.WellFormed.pushEntry _ _ _ Keychain.new_wellFormed .yjs 0
    (fun _ hop => (nomatch hop)) (10, 100)).cache _

/-- A rotation before the call reads the current key does no harm. -/
theorem welcomes_anchored_after_rotation :
    Guarded (step numberedProviders) (StaysAnchored numberedProviders) founder
      [.keychain (.addEpochKey 1 11 101), .send toReader, .resume 0 id,
        .resume 0 id, .resume 0 id] := by
  refine (welcomes_anchored_iff numberedProviders founder _ rfl
    founder_wellFormed ?_).2 ?_
  · refine ⟨?_, trivial, trivial, trivial, trivial, trivial⟩
    change ∀ op ∈ founder.document.keychain.doc.all, 1 ≠ op.id ∧ 1 ∉ op.deps
    decide
  · refine ⟨trivial, trivial, ?_, ?_, ?_, trivial⟩
    · intro request epoch hcall
      cases hcall
    · intro request epoch hcall _
      cases hcall
      exact Or.inr (by decide)
    · intro request epoch hcall
      cases hcall

/-- A rotation while the reader's public key is serialized: the Welcome names
key 10 and carries key 11 only. -/
theorem welcome_not_anchored :
    ∃ message, SendCall.sent message ∈ (exec (step numberedProviders) founder
        [.send toReader, .resume 0 id, .keychain (.addEpochKey 1 11 101),
          .resume 0 id, .resume 0 id]).calls ∧
      ¬ message.Anchored := by
  refine ⟨⟨10, 7, ⟨3⟩, ((Keychain.slice .yjs id [(11, 101)]).history .yjs),
    none⟩, ?_, ?_⟩
  · decide
  · decide

end WelcomeSending

end Collabswarm.Document
