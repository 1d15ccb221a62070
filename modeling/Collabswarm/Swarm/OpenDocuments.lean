import Collabswarm.Support.InsertionMap
import Collabswarm.Support.InsertionSet
import Collabswarm.Support.JsString
import Collabswarm.Support.Transition

/-!
# Open documents of a swarm

`open` registers a document under its path and gives it a pubsub listener, a
subscription to its topic and, if the configuration asks for it, a topic
validator; `close` takes all of this away.  Several instances may exist for one
path, and two paths may have one topic.  An event is the part of `open` that
follows the initial load, or a `close`; a failing `open` ends with a `close`, so
that calls of several instances interleave in any order.
-/

namespace Collabswarm.Swarm

/-- The code unit of `/`. -/
def slash : UInt16 := 0x2F

/-- `documentTopic`. -/
def documentTopic (documentPath topicPrefix : JsString) : JsString :=
  if topicPrefix = [] then documentPath
  else if topicPrefix.getLast? = some slash ∧
      documentPath.head? = some slash then
    topicPrefix ++ documentPath.tail
  else if topicPrefix.getLast? ≠ some slash ∧
      documentPath.head? ≠ some slash then
    topicPrefix ++ slash :: documentPath
  else topicPrefix ++ documentPath

/-- A path without its leading slash. -/
def relativePath (documentPath : JsString) : JsString :=
  if documentPath.head? = some slash then documentPath.tail else documentPath

theorem documentTopic_eq (documentPath : JsString) {topicPrefix : JsString}
    (h : topicPrefix ≠ []) :
    documentTopic documentPath topicPrefix =
      (if topicPrefix.getLast? = some slash then topicPrefix
        else topicPrefix ++ [slash]) ++ relativePath documentPath := by
  unfold documentTopic relativePath
  rw [if_neg h]
  by_cases hslash : topicPrefix.getLast? = some slash
  · by_cases hpath : documentPath.head? = some slash
    · rw [if_pos ⟨hslash, hpath⟩, if_pos hslash, if_pos hpath]
    · rw [if_neg fun hboth => hpath hboth.2,
        if_neg fun hboth => hboth.1 hslash, if_pos hslash, if_neg hpath]
  · by_cases hpath : documentPath.head? = some slash
    · obtain ⟨rest, hrest⟩ := List.head?_eq_some_iff.1 hpath
      rw [if_neg fun hboth => hslash hboth.1,
        if_neg fun hboth => hboth.2 hpath, if_neg hslash, if_pos hpath,
        hrest]
      simp
    · rw [if_neg fun hboth => hslash hboth.1, if_pos ⟨hslash, hpath⟩,
        if_neg hslash, if_neg hpath]
      simp

/-- Without a prefix the topic is the path; under a prefix a leading slash of
the path makes no difference. -/
def topicName (documentPath topicPrefix : JsString) : JsString :=
  if topicPrefix = [] then documentPath else relativePath documentPath

theorem documentTopic_eq_iff {p q topicPrefix : JsString} :
    documentTopic p topicPrefix = documentTopic q topicPrefix ↔
      topicName p topicPrefix = topicName q topicPrefix := by
  unfold topicName
  by_cases h : topicPrefix = []
  · rw [if_pos h, if_pos h]
    unfold documentTopic
    rw [if_pos h, if_pos h]
  · rw [if_neg h, if_neg h, documentTopic_eq p h, documentTopic_eq q h,
      List.append_cancel_left_eq]

/-! ## The state -/

/-- The closure that a call of `open` makes to handle messages. -/
structure Listener (D : Type) where
  document : D
  call : ℕ
deriving DecidableEq

/-- The fields of a `CollabswarmDocument` that `open` and `close` use. -/
structure DocumentFields (D : Type) where
  pubsubHandler : Option (Listener D)
  subscribed : Bool

/-- The registry of a `Collabswarm`, what its pubsub service knows, the document
instances, and the number of listeners made so far. -/
structure SwarmState (D : Type) where
  documentRegistry : InsertionMap JsString D
  subscriptions : InsertionSet JsString
  listeners : List (Listener D)
  topicValidators : InsertionMap JsString (Listener D)
  fields : D → DocumentFields D
  calls : ℕ

/-- The document instances with their paths, and what the configuration says of
topics and validators. -/
structure SwarmConfig (D : Type) where
  documentPath : D → JsString
  pubsubDocumentPrefix : JsString
  enableTopicValidators : Bool

/-- What happens to a document instance. -/
inductive SwarmEvent (D : Type) where
  | opening (d : D)
  | closing (d : D)

variable {D : Type} [DecidableEq D]

namespace SwarmState

omit [DecidableEq D] in
/-- Nothing is open. -/
def start : SwarmState D where
  documentRegistry := InsertionMap.empty
  subscriptions := InsertionSet.empty
  listeners := []
  topicValidators := InsertionMap.empty
  fields _ := ⟨none, false⟩
  calls := 0

/-- `unregisterDocument`: only the instance that is registered is removed. -/
def unregisterDocument (s : SwarmState D) (documentPath : JsString) (d : D) :
    SwarmState D :=
  if s.documentRegistry.get? documentPath = some d then
    { s with documentRegistry := s.documentRegistry.erase documentPath }
  else s

end SwarmState

namespace SwarmConfig

variable (c : SwarmConfig D)

omit [DecidableEq D] in
/-- `_topic` of a document. -/
def topic (d : D) : JsString :=
  documentTopic (c.documentPath d) c.pubsubDocumentPrefix

/-- The part of `close` that needs a handler. -/
def unsubscribe (s : SwarmState D) (d : D) (handler : Listener D) :
    SwarmState D :=
  { s with
    subscriptions :=
      if (s.fields d).subscribed then s.subscriptions.delete (c.topic d)
      else s.subscriptions
    listeners := s.listeners.erase handler
    topicValidators := s.topicValidators.erase (c.topic d)
    fields := Function.update s.fields d ⟨some handler, false⟩ }

/-- `close`. -/
def close (s : SwarmState D) (d : D) : SwarmState D :=
  match (s.fields d).pubsubHandler with
  | some handler =>
      (c.unsubscribe s d handler).unregisterDocument (c.documentPath d) d
  | none => s.unregisterDocument (c.documentPath d) d

/-- The part of `open` that assigns `_pubsubHandler`. -/
def assignHandler (s : SwarmState D) (d : D) : SwarmState D :=
  { s with
    fields := Function.update s.fields d
      ⟨some ⟨d, s.calls⟩, (s.fields d).subscribed⟩
    calls := s.calls + 1 }

/-- The registration and the subscription that `open` makes. -/
def subscribe (s : SwarmState D) (d : D) (handler : Listener D) :
    SwarmState D :=
  { s with
    documentRegistry := s.documentRegistry.set (c.documentPath d) d
    subscriptions := s.subscriptions.add (c.topic d)
    listeners := s.listeners ++ [handler]
    topicValidators :=
      if c.enableTopicValidators then
        s.topicValidators.set (c.topic d) handler
      else s.topicValidators
    fields := Function.update s.fields d ⟨some handler, true⟩ }

/-- The part of `open` behind the initial load: `registerDocument` throws if a
document is registered under the path, and `open` then closes the instance. -/
def openAfterLoad (s : SwarmState D) (d : D) : SwarmState D :=
  match s.documentRegistry.get? (c.documentPath d) with
  | some _ => c.close (assignHandler s d) d
  | none => c.subscribe (assignHandler s d) d ⟨d, s.calls⟩

/-- One event. -/
def step (s : SwarmState D) : SwarmEvent D → SwarmState D
  | .opening d => c.openAfterLoad s d
  | .closing d => c.close s d

/-- The document is the registered one of its path. -/
def Registered (s : SwarmState D) (d : D) : Prop :=
  s.documentRegistry.get? (c.documentPath d) = some d

/-- The document is subscribed to its topic, has its listener and, if the
configuration asks for it, its validator. -/
def IntactAt (s : SwarmState D) (d : D) : Prop :=
  c.topic d ∈ s.subscriptions.toList ∧
    ∃ handler ∈ s.listeners, (s.fields d).pubsubHandler = some handler ∧
      (c.enableTopicValidators →
        s.topicValidators.get? (c.topic d) = some handler)

/-- All registered documents are intact. -/
def Intact (s : SwarmState D) : Prop :=
  ∀ d, c.Registered s d → c.IntactAt s d

/-- The event deletes or replaces what pubsub keeps under the topic of its
document. -/
def Touches (s : SwarmState D) : SwarmEvent D → Prop
  | .opening d => c.enableTopicValidators ∨ (s.fields d).subscribed
  | .closing d =>
      (s.fields d).pubsubHandler ≠ none ∧
        (c.enableTopicValidators ∨ (s.fields d).subscribed)

end SwarmConfig

/-- The document of an event. -/
def SwarmEvent.document : SwarmEvent D → D
  | .opening d => d
  | .closing d => d

namespace SwarmConfig

variable (c : SwarmConfig D)

omit [DecidableEq D] in
/-- The paths of the documents make one topic. -/
def SameTopic (d d' : D) : Prop :=
  topicName (c.documentPath d) c.pubsubDocumentPrefix =
    topicName (c.documentPath d') c.pubsubDocumentPrefix

omit [DecidableEq D] in
theorem topic_eq_iff {d d' : D} :
    c.topic d = c.topic d' ↔ c.SameTopic d d' :=
  documentTopic_eq_iff

/-- If the event touches a topic, no other registered document has it. -/
def Apart (s : SwarmState D) (e : SwarmEvent D) : Prop :=
  c.Touches s e → ∀ d', c.Registered s d' →
    c.SameTopic d' e.document → d' = e.document

/-- The documents that count as subscribed are the registered ones; they have a
handler, and every handler belongs to its document. -/
structure Inv (s : SwarmState D) : Prop where
  subscribed : ∀ d, (s.fields d).subscribed = true ↔ c.Registered s d
  handled : ∀ d, (s.fields d).pubsubHandler = none →
    (s.fields d).subscribed = false
  owner : ∀ d handler, (s.fields d).pubsubHandler = some handler →
    handler.document = d

omit [DecidableEq D] in
theorem inv_start : c.Inv SwarmState.start where
  subscribed d := by
    unfold Registered SwarmState.start
    simp
  handled _ _ := rfl
  owner d handler h := by cases h

variable {c} {s : SwarmState D} {d d' : D}

/-! ## Closing -/

/-- Closing takes nothing but the document out of the registry. -/
theorem registered_unregisterDocument :
    c.Registered (s.unregisterDocument (c.documentPath d) d) d' ↔
      c.Registered s d' ∧ d' ≠ d := by
  unfold SwarmState.unregisterDocument Registered
  split
  case isTrue hd =>
    rw [InsertionMap.get?_erase]
    by_cases hpath : c.documentPath d' = c.documentPath d
    · rw [if_pos hpath, hpath, hd]
      simp [eq_comm]
    · rw [if_neg hpath]
      refine (and_iff_left ?_).symm
      rintro rfl
      exact hpath rfl
  case isFalse hd =>
    refine (and_iff_left_of_imp ?_).symm
    rintro hreg rfl
    exact hd hreg

theorem registered_close :
    c.Registered (c.close s d) d' ↔ c.Registered s d' ∧ d' ≠ d := by
  unfold close
  split
  case h_1 => exact registered_unregisterDocument
  case h_2 => exact registered_unregisterDocument

theorem fields_unregisterDocument (documentPath : JsString) :
    (s.unregisterDocument documentPath d).fields = s.fields := by
  unfold SwarmState.unregisterDocument
  split <;> rfl

theorem intactAt_unregisterDocument (documentPath : JsString) :
    c.IntactAt (s.unregisterDocument documentPath d) d' ↔
      c.IntactAt s d' := by
  unfold SwarmState.unregisterDocument
  split <;> exact Iff.rfl

/-- A closed document is not subscribed any more. -/
theorem Inv.fields_close (h : c.Inv s) (d : D) :
    (c.close s d).fields =
      Function.update s.fields d ⟨(s.fields d).pubsubHandler, false⟩ := by
  unfold SwarmConfig.close
  cases hhandler : (s.fields d).pubsubHandler with
  | some handler => rw [fields_unregisterDocument, unsubscribe]
  | none =>
      have hfields : s.fields d = ⟨none, false⟩ := by
        rw [← hhandler, ← h.handled d hhandler]
      rw [fields_unregisterDocument, ← hfields, Function.update_eq_self]

theorem Inv.close (h : c.Inv s) (d : D) : c.Inv (c.close s d) := by
  constructor
  · intro d'
    rw [registered_close, h.fields_close]
    by_cases hd : d' = d
    · subst hd
      simp
    · rw [Function.update_of_ne hd, h.subscribed]
      simp [hd]
  · intro d' hnone
    rw [h.fields_close] at hnone ⊢
    by_cases hd : d' = d
    · subst hd
      simp
    · rw [Function.update_of_ne hd] at hnone ⊢
      exact h.handled d' hnone
  · intro d' handler hhandler
    rw [h.fields_close] at hhandler
    by_cases hd : d' = d
    · subst hd
      rw [Function.update_self] at hhandler
      exact h.owner d' handler hhandler
    · rw [Function.update_of_ne hd] at hhandler
      exact h.owner d' handler hhandler

/-- Closing spares another document exactly if it does not touch its topic. -/
theorem Inv.intactAt_close_iff (h : c.Inv s) (hd : d' ≠ d)
    (hintact : c.IntactAt s d') :
    c.IntactAt (c.close s d) d' ↔
      (c.Touches s (.closing d) → c.topic d' ≠ c.topic d) := by
  obtain ⟨hsub, handler', hmem, hhandler', hvalidator⟩ := hintact
  unfold SwarmConfig.close Touches
  cases hhandler : (s.fields d).pubsubHandler with
  | none =>
      rw [intactAt_unregisterDocument]
      refine iff_of_true ⟨hsub, handler', hmem, hhandler', hvalidator⟩ ?_
      rintro ⟨hne, -⟩
      exact absurd hhandler hne
  | some handler =>
      have hother : handler' ≠ handler := by
        rintro rfl
        exact hd ((h.owner d' handler' hhandler').symm.trans
          (h.owner d handler' hhandler))
      have hlistener : handler' ∈ s.listeners.erase handler :=
        (List.mem_erase_of_ne hother).2 hmem
      rw [intactAt_unregisterDocument]
      unfold IntactAt unsubscribe
      dsimp only
      rw [Function.update_of_ne hd]
      constructor
      · rintro ⟨hsub', handler'', -, hhandler'', hvalidator'⟩ ⟨-, htouch⟩ heq
        rcases htouch with henabled | hsubscribed
        · have hget := hvalidator' henabled
          rw [InsertionMap.get?_erase, if_pos heq] at hget
          cases hget
        · rw [if_pos hsubscribed, heq, InsertionSet.mem_delete] at hsub'
          exact hsub'.1 rfl
      · intro hapart
        refine ⟨?_, handler', hlistener, hhandler', ?_⟩
        · split
          case isTrue hsubscribed =>
            rw [InsertionSet.mem_delete]
            exact ⟨hapart ⟨by simp [hhandler], Or.inr hsubscribed⟩, hsub⟩
          case isFalse => exact hsub
        · intro henabled
          rw [InsertionMap.get?_erase,
            if_neg (hapart ⟨by simp [hhandler], Or.inl henabled⟩)]
          exact hvalidator henabled

/-! ## Opening -/

theorem registered_assignHandler :
    c.Registered (assignHandler s d) d' ↔ c.Registered s d' :=
  Iff.rfl

theorem Inv.assignHandler (h : c.Inv s) (d : D) :
    c.Inv (assignHandler s d) := by
  constructor
  · intro d'
    rw [registered_assignHandler, ← h.subscribed]
    unfold SwarmConfig.assignHandler
    by_cases hd : d' = d
    · subst hd
      simp
    · simp [Function.update_of_ne hd]
  · intro d' hnone
    unfold SwarmConfig.assignHandler at hnone ⊢
    by_cases hd : d' = d
    · subst hd
      simp at hnone
    · simp only [Function.update_of_ne hd] at hnone ⊢
      exact h.handled d' hnone
  · intro d' handler hhandler
    unfold SwarmConfig.assignHandler at hhandler
    by_cases hd : d' = d
    · subst hd
      simp only [Function.update_self, Option.some.injEq] at hhandler
      rw [← hhandler]
    · simp only [Function.update_of_ne hd] at hhandler
      exact h.owner d' handler hhandler

theorem intactAt_assignHandler (hd : d' ≠ d) :
    c.IntactAt (assignHandler s d) d' ↔ c.IntactAt s d' := by
  unfold IntactAt SwarmConfig.assignHandler
  dsimp only
  rw [Function.update_of_ne hd]

/-- The handler that `open` assigns lets the `close` of a failing `open` touch
the topic. -/
theorem touches_assignHandler :
    c.Touches (assignHandler s d) (.closing d) ↔
      c.Touches s (.opening d) := by
  unfold Touches SwarmConfig.assignHandler
  simp

theorem touches_opening_assignHandler :
    c.Touches (assignHandler s d) (.opening d) ↔
      c.Touches s (.opening d) := by
  unfold Touches SwarmConfig.assignHandler
  simp

theorem registered_subscribe {handler : Listener D}
    (hfree : s.documentRegistry.get? (c.documentPath d) = none) :
    c.Registered (c.subscribe s d handler) d' ↔
      c.Registered s d' ∨ d' = d := by
  unfold Registered subscribe
  dsimp only
  rw [InsertionMap.get?_set]
  by_cases hpath : c.documentPath d' = c.documentPath d
  · rw [if_pos hpath, hpath, hfree]
    simp [eq_comm]
  · rw [if_neg hpath]
    refine (or_iff_left ?_).symm
    rintro rfl
    exact hpath rfl

theorem Inv.subscribe (h : c.Inv s) {handler : Listener D}
    (hfree : s.documentRegistry.get? (c.documentPath d) = none)
    (howner : handler.document = d) : c.Inv (c.subscribe s d handler) := by
  constructor
  · intro d'
    rw [registered_subscribe hfree]
    unfold SwarmConfig.subscribe
    by_cases hd : d' = d
    · subst hd
      simp
    · simp [hd, h.subscribed]
  · intro d' hnone
    unfold SwarmConfig.subscribe at hnone ⊢
    by_cases hd : d' = d
    · subst hd
      simp at hnone
    · simp only [Function.update_of_ne hd] at hnone ⊢
      exact h.handled d' hnone
  · intro d' handler' hhandler
    unfold SwarmConfig.subscribe at hhandler
    by_cases hd : d' = d
    · subst hd
      simp only [Function.update_self, Option.some.injEq] at hhandler
      rw [← hhandler, howner]
    · simp only [Function.update_of_ne hd] at hhandler
      exact h.owner d' handler' hhandler

/-- A document that is opened is intact. -/
theorem intactAt_subscribe_self (handler : Listener D) :
    c.IntactAt (c.subscribe s d handler) d := by
  unfold IntactAt SwarmConfig.subscribe
  refine ⟨by simp, handler, by simp, by simp, ?_⟩
  intro henabled
  simp [henabled]

/-- Opening spares another document exactly if it does not replace its
validator. -/
theorem Inv.intactAt_subscribe_iff (h : c.Inv s) {handler : Listener D}
    (howner : handler.document = d) (hd : d' ≠ d)
    (hintact : c.IntactAt s d') :
    c.IntactAt (c.subscribe s d handler) d' ↔
      (c.enableTopicValidators → c.topic d' ≠ c.topic d) := by
  obtain ⟨hsub, handler', hmem, hhandler', hvalidator⟩ := hintact
  unfold IntactAt SwarmConfig.subscribe
  dsimp only
  rw [Function.update_of_ne hd]
  constructor
  · rintro ⟨-, handler'', -, hhandler'', hvalidator'⟩ henabled heq
    have hget := hvalidator' henabled
    rw [if_pos henabled, heq, InsertionMap.get?_set_self] at hget
    rw [← Option.some.inj hget] at hhandler''
    exact hd ((h.owner d' handler hhandler'').symm.trans howner)
  · intro hapart
    refine ⟨by simp [hsub], handler', by simp [hmem], hhandler', ?_⟩
    intro henabled
    rw [if_pos henabled, InsertionMap.get?_set_of_ne _ _ (hapart henabled)]
    exact hvalidator henabled

/-! ## Runs -/

theorem step_opening_of_free
    (hfree : s.documentRegistry.get? (c.documentPath d) = none) :
    c.step s (.opening d) =
      c.subscribe (assignHandler s d) d ⟨d, s.calls⟩ := by
  simp only [step, openAfterLoad, hfree]

theorem step_opening_of_registered {d₀ : D}
    (h : s.documentRegistry.get? (c.documentPath d) = some d₀) :
    c.step s (.opening d) = c.close (assignHandler s d) d := by
  simp only [step, openAfterLoad, h]

theorem Inv.step (h : c.Inv s) (e : SwarmEvent D) : c.Inv (c.step s e) := by
  cases e with
  | closing d => exact h.close d
  | opening d =>
      cases hregistered : s.documentRegistry.get? (c.documentPath d) with
      | some d₀ =>
          rw [step_opening_of_registered hregistered]
          exact (h.assignHandler d).close d
      | none =>
          rw [step_opening_of_free hregistered]
          exact (h.assignHandler d).subscribe hregistered rfl

/-- Closing a document keeps the others intact exactly if it is apart from
them. -/
theorem Inv.intact_close_iff (h : c.Inv s)
    (hintact : ∀ d' ≠ d, c.Registered s d' → c.IntactAt s d') :
    c.Intact (c.close s d) ↔ c.Apart s (.closing d) := by
  constructor
  · intro hafter htouch d' hreg hsame
    by_contra hd
    have hat := hafter d' (registered_close.2 ⟨hreg, hd⟩)
    exact (h.intactAt_close_iff hd (hintact d' hd hreg)).1 hat htouch
      (c.topic_eq_iff.2 hsame)
  · intro hapart d' hreg
    obtain ⟨hreg, hd⟩ := registered_close.1 hreg
    refine (h.intactAt_close_iff hd (hintact d' hd hreg)).2 ?_
    intro htouch htopic
    exact hd (hapart htouch d' hreg (c.topic_eq_iff.1 htopic))

/-- Opening a document keeps the others intact exactly if it is apart from
them. -/
theorem Inv.intact_subscribe_iff (h : c.Inv s)
    (hintact : ∀ d' ≠ d, c.Registered s d' → c.IntactAt s d')
    (hfree : s.documentRegistry.get? (c.documentPath d) = none)
    {handler : Listener D} (howner : handler.document = d) :
    c.Intact (c.subscribe s d handler) ↔ c.Apart s (.opening d) := by
  have hnew : (s.fields d).subscribed ≠ true := by
    intro hsub
    have hreg : s.documentRegistry.get? (c.documentPath d) = some d :=
      (h.subscribed d).1 hsub
    rw [hfree] at hreg
    cases hreg
  constructor
  · rintro hafter htouch d' hreg hsame
    by_contra hd
    have hat := hafter d' ((registered_subscribe hfree).2 (Or.inl hreg))
    have henabled := htouch.resolve_right hnew
    exact (h.intactAt_subscribe_iff howner hd (hintact d' hd hreg)).1 hat
      henabled (c.topic_eq_iff.2 hsame)
  · intro hapart d' hreg
    by_cases hd : d' = d
    · subst hd
      exact intactAt_subscribe_self handler
    · have hreg' := ((registered_subscribe hfree).1 hreg).resolve_right hd
      refine (h.intactAt_subscribe_iff howner hd
        (hintact d' hd hreg')).2 ?_
      intro henabled htopic
      exact hd (hapart (Or.inl henabled) d' hreg' (c.topic_eq_iff.1 htopic))

/-- An event keeps the open documents intact exactly if it is apart from
them. -/
theorem Inv.intact_step_iff (h : c.Inv s) (hintact : c.Intact s)
    (e : SwarmEvent D) : c.Intact (c.step s e) ↔ c.Apart s e := by
  cases e with
  | closing d => exact h.intact_close_iff fun d' _ hreg => hintact d' hreg
  | opening d =>
      have hassigned : ∀ d' ≠ d,
          c.Registered (SwarmConfig.assignHandler s d) d' →
          c.IntactAt (SwarmConfig.assignHandler s d) d' := by
        intro d' hd hreg
        exact (intactAt_assignHandler hd).2 (hintact d' hreg)
      cases hregistered : s.documentRegistry.get? (c.documentPath d) with
      | some d₀ =>
          rw [step_opening_of_registered hregistered,
            (h.assignHandler d).intact_close_iff hassigned]
          unfold Apart
          rw [touches_assignHandler]
          rfl
      | none =>
          rw [step_opening_of_free hregistered,
            (h.assignHandler d).intact_subscribe_iff hassigned hregistered
              rfl]
          unfold Apart
          rw [touches_opening_assignHandler]
          rfl

/-- In every run of opens and closes the open documents stay intact exactly if
no event deletes or replaces what pubsub keeps under the topic of another open
document. -/
theorem intact_iff_apart (events : List (SwarmEvent D)) :
    (∀ k, c.Intact (exec c.step SwarmState.start (events.take k))) ↔
      Guarded c.step c.Apart SwarmState.start events := by
  have hgood : ∀ s : SwarmState D, c.Inv s ∧ c.Intact s → c.Intact s :=
    fun s h => h.2
  refine forall_exec_take_iff_guarded hgood
    (fun s e h => h.1.intact_step_iff h.2 e)
    (fun s e h hapart => ⟨h.1.step e, (h.1.intact_step_iff h.2 e).2 hapart⟩)
    events SwarmState.start ⟨c.inv_start, ?_⟩
  intro d hreg
  cases hreg

end SwarmConfig

end Collabswarm.Swarm
