import Mathlib.Tactic
import Collabswarm.Support.InsertionSet
import Collabswarm.Support.JsString
import Collabswarm.Support.Transition

/-!
# The topics of the relay server

The relay subscribes to two topics of its own and the extra ones, and to the
topics that peers join, as far as the policy and a cap allow.  It leaves such a
topic when a peer leaves it and pubsub reports no subscriber any more.  Two
listeners handle each change, the first all joined topics and then the second
all left ones.

The relay never stays in a topic that was left by all.  It is in all the topics
that are wanted exactly if no topic that is over the cap outlasts its event: a
topic that was refused is not asked for again.
-/

namespace Collabswarm.Relay

/-- The part of `RelayConfig` that is about topics. -/
structure RelayConfig where
  peerDiscoveryTopic : JsString
  documentPublishPath : JsString
  topicAllowlist : Option (List JsString)
  maxAutoTopics : ℕ
  extraTopics : List JsString

/-- `SYSTEM_TOPIC_PREFIXES`. -/
def systemTopicPrefixes : List JsString :=
  [JsString.ofString "_", JsString.ofString "floodsub:"]

/-- `AutoSubscribePolicy`; the relay passes no prefixes of its own. -/
structure AutoSubscribePolicy where
  allowlist : Option (List JsString)
  maxAutoTopics : ℕ
  autoTopicCount : ℕ
  isTracked : JsString → Bool
  systemTopicPrefixes : Option (List JsString)

/-- Why a topic is skipped. -/
inductive AutoSubscribeSkipReason where
  | alreadyTracked
  | systemTopic
  | notInAllowlist
  | capReached
deriving DecidableEq, Repr

/-- The outcome of the decision. -/
inductive AutoSubscribeDecision where
  | subscribe
  | skip (reason : AutoSubscribeSkipReason)
deriving DecidableEq, Repr

/-- The topic starts with one of the prefixes. -/
def startsWithSome (prefixes : List JsString) (topic : JsString) : Bool :=
  prefixes.any fun p => p.isPrefixOf topic

/-- `shouldAutoSubscribe`. -/
def shouldAutoSubscribe (topic : JsString) (policy : AutoSubscribePolicy) :
    AutoSubscribeDecision :=
  if policy.isTracked topic then .skip .alreadyTracked
  else if startsWithSome
      (policy.systemTopicPrefixes.getD systemTopicPrefixes) topic then
    .skip .systemTopic
  else if policy.allowlist.any fun allowed =>
      !startsWithSome allowed topic then
    .skip .notInAllowlist
  else if policy.maxAutoTopics ≤ policy.autoTopicCount then .skip .capReached
  else .subscribe

/-- A peer joins or leaves a topic. -/
structure Subscription where
  topic : JsString
  subscribe : Bool

/-- A `subscription-change` event, and the subscribers that pubsub reports while
it is handled; older versions of pubsub report none. -/
structure SubscriptionChange where
  subscriptions : List Subscription
  getSubscribers : JsString → Option (List JsString)

/-- The sets of the relay, and the topics it has subscribed to in pubsub. -/
structure RelayServer where
  trackedTopics : InsertionSet JsString
  autoTopics : InsertionSet JsString
  subscribed : InsertionSet JsString

namespace RelayServer

/-- Track a topic and subscribe to it. -/
def track (s : RelayServer) (topic : JsString) : RelayServer :=
  { s with
    trackedTopics := s.trackedTopics.add topic
    subscribed := s.subscribed.add topic }

/-- `main`: the topics of the relay, and the extra ones that are not tracked
yet. -/
def start (config : RelayConfig) : RelayServer :=
  let seeded := ((RelayServer.mk .empty .empty .empty).track
    config.peerDiscoveryTopic).track config.documentPublishPath
  config.extraTopics.foldl (fun s topic =>
    if topic ∈ s.trackedTopics.toList then s else s.track topic) seeded

/-- The first listener. -/
def autoSubscribe (config : RelayConfig) (s : RelayServer)
    (sub : Subscription) : RelayServer :=
  if !sub.subscribe then s
  else
    match shouldAutoSubscribe sub.topic
      { allowlist := config.topicAllowlist
        maxAutoTopics := config.maxAutoTopics
        autoTopicCount := s.autoTopics.size
        isTracked := fun t => t ∈ s.trackedTopics.toList
        systemTopicPrefixes := none } with
    | .skip _ => s
    | .subscribe =>
        { trackedTopics := s.trackedTopics.add sub.topic
          autoTopics := s.autoTopics.add sub.topic
          subscribed := s.subscribed.add sub.topic }

/-- The second listener. -/
def autoUnsubscribe (getSubscribers : JsString → Option (List JsString))
    (s : RelayServer) (sub : Subscription) : RelayServer :=
  if sub.subscribe ∨ sub.topic ∉ s.autoTopics.toList then s
  else
    match getSubscribers sub.topic with
    | some [] =>
        { trackedTopics := s.trackedTopics.delete sub.topic
          autoTopics := s.autoTopics.delete sub.topic
          subscribed := s.subscribed.delete sub.topic }
    | _ => s

/-- Both listeners handle an event. -/
def step (config : RelayConfig) (s : RelayServer) (e : SubscriptionChange) :
    RelayServer :=
  e.subscriptions.foldl (autoUnsubscribe e.getSubscribers)
    (e.subscriptions.foldl (autoSubscribe config) s)

end RelayServer

/-! ## What the relay is for -/

/-- The topics that the relay never leaves. -/
def RelayConfig.permanentTopics (config : RelayConfig) : List JsString :=
  config.peerDiscoveryTopic :: config.documentPublishPath ::
    config.extraTopics

/-- The topics that the relay may join: no system topic, and in the allowlist
if there is one. -/
structure RelayConfig.Eligible (config : RelayConfig) (topic : JsString) :
    Prop where
  temporary : topic ∉ config.permanentTopics
  system : startsWithSome systemTopicPrefixes topic = false
  allowed : ∀ allowlist ∈ config.topicAllowlist,
    startsWithSome allowlist topic = true

instance (config : RelayConfig) (topic : JsString) :
    Decidable (config.Eligible topic) :=
  decidable_of_iff
    (topic ∉ config.permanentTopics ∧
      startsWithSome systemTopicPrefixes topic = false ∧
      ∀ allowlist ∈ config.topicAllowlist,
        startsWithSome allowlist topic = true)
    ⟨fun h => ⟨h.1, h.2.1, h.2.2⟩,
      fun h => ⟨h.temporary, h.system, h.allowed⟩⟩

namespace SubscriptionChange

/-- The topics that peers join. -/
def joined (e : SubscriptionChange) : List JsString :=
  (e.subscriptions.filter (·.subscribe)).map (·.topic)

/-- A peer leaves the topic, and nobody is left in it. -/
def Deserted (e : SubscriptionChange) (topic : JsString) : Prop :=
  (∃ sub ∈ e.subscriptions, sub.subscribe = false ∧ sub.topic = topic) ∧
    e.getSubscribers topic = some []

instance (e : SubscriptionChange) (topic : JsString) :
    Decidable (e.Deserted topic) :=
  inferInstanceAs (Decidable (_ ∧ _))

end SubscriptionChange

/-- A relay, with the topics that peers joined since they were deserted. -/
structure ObservedRelay where
  relay : RelayServer
  wanted : JsString → Bool

namespace ObservedRelay

/-- The relay at its start. -/
def start (config : RelayConfig) : ObservedRelay :=
  ⟨.start config, fun _ => false⟩

/-- An event is handled. -/
def step (config : RelayConfig) (s : ObservedRelay)
    (e : SubscriptionChange) : ObservedRelay where
  relay := s.relay.step config e
  wanted topic :=
    (s.wanted topic || decide (topic ∈ e.joined)) && !decide (e.Deserted topic)

/-- The relay after some events. -/
def run (config : RelayConfig) (events : List SubscriptionChange) :
    ObservedRelay := exec (step config) (start config) events

end ObservedRelay

/-- The joined topics that the relay may join and has not, each once, in the
order in which they are joined. -/
def fresh (config : RelayConfig) : List JsString → List JsString →
    List JsString
  | _, [] => []
  | auto, topic :: topics =>
      if config.Eligible topic ∧ topic ∉ auto then
        topic :: fresh config (auto ++ [topic]) topics
      else fresh config auto topics

/-- The joined topics that are over the cap. -/
def refused (config : RelayConfig) (s : RelayServer)
    (e : SubscriptionChange) : List JsString :=
  (fresh config s.autoTopics.toList e.joined).drop
    (config.maxAutoTopics - s.autoTopics.size)

/-- Every topic that is over the cap is deserted in the same event. -/
def Fits (config : RelayConfig) (s : ObservedRelay)
    (e : SubscriptionChange) : Prop :=
  ∀ topic ∈ refused config s.relay e, e.Deserted topic

instance (config : RelayConfig) (s : ObservedRelay)
    (e : SubscriptionChange) : Decidable (Fits config s e) :=
  inferInstanceAs (Decidable (∀ _ ∈ _, _))

section Fresh

variable {config : RelayConfig}

theorem mem_fresh {topic : JsString} :
    ∀ (topics auto : List JsString), topic ∈ fresh config auto topics ↔
      topic ∈ topics ∧ config.Eligible topic ∧ topic ∉ auto := by
  intro topics
  induction topics with
  | nil => simp [fresh]
  | cons next topics ih =>
      intro auto
      rw [fresh]
      by_cases hnext : config.Eligible next ∧ next ∉ auto
      · rw [if_pos hnext, List.mem_cons, ih, List.mem_cons]
        by_cases heq : topic = next
        · subst heq
          simp [hnext]
        · simp [heq]
      · rw [if_neg hnext, ih, List.mem_cons]
        constructor
        · exact fun h => ⟨Or.inr h.1, h.2⟩
        · rintro ⟨rfl | hmem, hrest⟩
          · exact absurd hrest hnext
          · exact ⟨hmem, hrest⟩

theorem nodup_fresh :
    ∀ topics auto : List JsString, (fresh config auto topics).Nodup := by
  intro topics
  induction topics with
  | nil => exact fun _ => List.nodup_nil
  | cons next topics ih =>
      intro auto
      rw [fresh]
      split
      · refine List.nodup_cons.2 ⟨?_, ih _⟩
        rw [mem_fresh]
        simp
      · exact ih auto

end Fresh

/-! ## The start -/

namespace RelayServer

/-- The extra topics are tracked, and subscribed to as all tracked ones. -/
theorem foldl_track (topics : List JsString) :
    ∀ s : RelayServer,
      (∀ topic, topic ∈ s.subscribed.toList ↔
        topic ∈ s.trackedTopics.toList) →
      let s' := topics.foldl (fun s topic =>
        if topic ∈ s.trackedTopics.toList then s else s.track topic) s
      (∀ topic, topic ∈ s'.subscribed.toList ↔
        topic ∈ s'.trackedTopics.toList) ∧
      (∀ topic, topic ∈ s'.trackedTopics.toList ↔
        topic ∈ s.trackedTopics.toList ∨ topic ∈ topics) ∧
      s'.autoTopics = s.autoTopics := by
  induction topics with
  | nil => exact fun s h => ⟨h, by simp, rfl⟩
  | cons next topics ih =>
      intro s h
      rw [List.foldl_cons]
      by_cases hnext : next ∈ s.trackedTopics.toList
      · rw [if_pos hnext]
        obtain ⟨hsub, htracked, hauto⟩ := ih s h
        refine ⟨hsub, fun topic => ?_, hauto⟩
        rw [htracked, List.mem_cons]
        by_cases heq : topic = next
        · simp [heq, hnext]
        · simp [heq]
      · rw [if_neg hnext]
        obtain ⟨hsub, htracked, hauto⟩ := ih (s.track next) (by
          intro topic
          simp [track, h])
        refine ⟨hsub, fun topic => ?_, hauto⟩
        rw [htracked, List.mem_cons, track, InsertionSet.mem_add, or_assoc]

theorem autoTopics_start (config : RelayConfig) :
    (start config).autoTopics = .empty :=
  (foldl_track config.extraTopics _ (fun _ => Iff.rfl)).2.2

end RelayServer

/-! ## The listeners -/

/-- The relay is subscribed to what it tracks: its permanent topics and the
ones it joined, which it may join and which are not more than the cap. -/
structure Inv (config : RelayConfig) (s : RelayServer) : Prop where
  subscribed : ∀ topic,
    topic ∈ s.subscribed.toList ↔ topic ∈ s.trackedTopics.toList
  tracked : ∀ topic, topic ∈ s.trackedTopics.toList ↔
    topic ∈ config.permanentTopics ∨ topic ∈ s.autoTopics.toList
  eligible : ∀ topic ∈ s.autoTopics.toList, config.Eligible topic
  capped : s.autoTopics.size ≤ config.maxAutoTopics

namespace Inv

variable {config : RelayConfig} {s : RelayServer}

theorem start (config : RelayConfig) : Inv config (.start config) := by
  obtain ⟨hsub, htracked, -⟩ := RelayServer.foldl_track config.extraTopics
    (((RelayServer.mk .empty .empty .empty).track
      config.peerDiscoveryTopic).track config.documentPublishPath)
    (fun topic => Iff.rfl)
  have hauto := RelayServer.autoTopics_start config
  refine ⟨hsub, ?_, ?_, ?_⟩
  · intro topic
    rw [hauto, RelayServer.start, htracked]
    simp [RelayServer.track, RelayConfig.permanentTopics, InsertionSet.empty,
      or_assoc]
  · rw [hauto]
    intro topic htopic
    cases htopic
  · rw [hauto]
    exact Nat.zero_le _

/-- What the policy says to a joined topic. -/
theorem shouldAutoSubscribe_eq (h : Inv config s) (topic : JsString) :
    shouldAutoSubscribe topic
      { allowlist := config.topicAllowlist
        maxAutoTopics := config.maxAutoTopics
        autoTopicCount := s.autoTopics.size
        isTracked := fun t => t ∈ s.trackedTopics.toList
        systemTopicPrefixes := none } = .subscribe ↔
      config.Eligible topic ∧ topic ∉ s.autoTopics.toList ∧
        s.autoTopics.size < config.maxAutoTopics := by
  have hallowed : (config.topicAllowlist.any fun allowed =>
        !startsWithSome allowed topic) = false ↔
      ∀ allowlist ∈ config.topicAllowlist,
        startsWithSome allowlist topic = true := by
    cases config.topicAllowlist <;> simp
  have heligible : config.Eligible topic ↔
      topic ∉ config.permanentTopics ∧
        startsWithSome systemTopicPrefixes topic = false ∧
        ∀ allowlist ∈ config.topicAllowlist,
          startsWithSome allowlist topic = true :=
    ⟨fun h => ⟨h.temporary, h.system, h.allowed⟩,
      fun h => ⟨h.1, h.2.1, h.2.2⟩⟩
  rw [shouldAutoSubscribe, heligible, ← hallowed]
  simp only [decide_eq_true_eq, h.tracked, Option.getD_none]
  split
  · simp; tauto
  · rename_i htracked
    rw [not_or] at htracked
    split
    · rename_i hsystem
      simp [hsystem]
    · rename_i hsystem
      rw [Bool.not_eq_true] at hsystem
      split
      · rename_i hlist
        simp [hlist]
      · rename_i hlist
        rw [Bool.not_eq_true] at hlist
        split
        · simp; omega
        · simp [htracked, hsystem, hlist]; omega

theorem autoSubscribe_of_skipped (h : Inv config s) {sub : Subscription}
    (hskip : ¬ (sub.subscribe = true ∧ config.Eligible sub.topic ∧
      sub.topic ∉ s.autoTopics.toList ∧
      s.autoTopics.size < config.maxAutoTopics)) :
    s.autoSubscribe config sub = s := by
  rw [RelayServer.autoSubscribe]
  split
  · rfl
  · rename_i hsub
    split
    · rfl
    · rename_i hdecision
      rw [h.shouldAutoSubscribe_eq] at hdecision
      exact absurd ⟨by simpa using hsub, hdecision⟩ hskip

theorem autoSubscribe_of_joined (h : Inv config s) {sub : Subscription}
    (hsub : sub.subscribe = true)
    (hjoin : config.Eligible sub.topic ∧ sub.topic ∉ s.autoTopics.toList ∧
      s.autoTopics.size < config.maxAutoTopics) :
    Inv config (s.autoSubscribe config sub) ∧
      (s.autoSubscribe config sub).autoTopics.toList =
        s.autoTopics.toList ++ [sub.topic] := by
  have hdecision := (h.shouldAutoSubscribe_eq sub.topic).2 hjoin
  have hlist := InsertionSet.toList_add_of_not_mem hjoin.2.1
  have hrun : s.autoSubscribe config sub =
      { trackedTopics := s.trackedTopics.add sub.topic
        autoTopics := s.autoTopics.add sub.topic
        subscribed := s.subscribed.add sub.topic } := by
    rw [RelayServer.autoSubscribe, hsub, hdecision]
    rfl
  rw [hrun]
  refine ⟨⟨?_, ?_, ?_, ?_⟩, hlist⟩
  · intro topic
    simp [h.subscribed]
  · intro topic
    simp [h.tracked, or_assoc]
  · intro topic htopic
    rcases InsertionSet.mem_add.1 htopic with hold | rfl
    · exact h.eligible topic hold
    · exact hjoin.1
  · rw [InsertionSet.size, hlist, List.length_append]
    exact hjoin.2.2

/-- The first listener joins the first new topics, as many as there is room
for. -/
theorem foldl_autoSubscribe (subs : List Subscription) :
    ∀ {s : RelayServer}, Inv config s →
      Inv config (subs.foldl (RelayServer.autoSubscribe config) s) ∧
        (subs.foldl (RelayServer.autoSubscribe config) s).autoTopics.toList =
          s.autoTopics.toList ++
            (fresh config s.autoTopics.toList
              ((subs.filter (·.subscribe)).map (·.topic))).take
              (config.maxAutoTopics - s.autoTopics.size) := by
  induction subs with
  | nil => exact fun h => ⟨h, by simp [fresh]⟩
  | cons sub subs ih =>
      intro s h
      rw [List.foldl_cons]
      by_cases hsub : sub.subscribe = true
      · rw [List.filter_cons_of_pos hsub, List.map_cons, fresh]
        by_cases hnew : config.Eligible sub.topic ∧
            sub.topic ∉ s.autoTopics.toList
        · rw [if_pos hnew]
          by_cases hroom : s.autoTopics.size < config.maxAutoTopics
          · obtain ⟨hinv, hauto⟩ :=
              h.autoSubscribe_of_joined hsub ⟨hnew.1, hnew.2, hroom⟩
            obtain ⟨hinv', hauto'⟩ := ih hinv
            refine ⟨hinv', ?_⟩
            have hsize : config.maxAutoTopics - s.autoTopics.size =
                config.maxAutoTopics -
                  (s.autoSubscribe config sub).autoTopics.size + 1 := by
              rw [InsertionSet.size, InsertionSet.size, hauto,
                List.length_append]
              rw [InsertionSet.size] at hroom
              simp only [List.length_singleton]
              omega
            rw [hauto', hsize, List.take_succ_cons, hauto]
            simp
          · -- the cap is reached, and nothing is joined any more
            rw [h.autoSubscribe_of_skipped fun h => hroom h.2.2.2]
            obtain ⟨hinv, hauto⟩ := ih h
            have hzero : config.maxAutoTopics - s.autoTopics.size = 0 := by
              omega
            rw [hzero] at hauto ⊢
            exact ⟨hinv, hauto⟩
        · rw [if_neg hnew, h.autoSubscribe_of_skipped
            fun h => hnew ⟨h.2.1, h.2.2.1⟩]
          exact ih h
      · rw [List.filter_cons_of_neg hsub, h.autoSubscribe_of_skipped
          fun h => hsub h.1]
        exact ih h

/-- The second listener leaves one topic. -/
theorem autoUnsubscribe (h : Inv config s)
    (getSubscribers : JsString → Option (List JsString))
    (sub : Subscription) :
    Inv config (s.autoUnsubscribe getSubscribers sub) ∧
      ∀ topic,
        topic ∈ (s.autoUnsubscribe getSubscribers sub).autoTopics.toList ↔
          topic ∈ s.autoTopics.toList ∧
            ¬ ((sub.subscribe = false ∧ sub.topic = topic) ∧
              getSubscribers topic = some []) := by
  rw [RelayServer.autoUnsubscribe]
  split
  · rename_i hkeep
    refine ⟨h, fun topic => (and_iff_left_of_imp ?_).symm⟩
    rintro htopic ⟨⟨hleft, rfl⟩, -⟩
    rcases hkeep with hjoined | hnot
    · rw [hleft] at hjoined
      cases hjoined
    · exact hnot htopic
  · rename_i hleft
    rw [not_or, not_not, Bool.not_eq_true] at hleft
    split
    · rename_i hempty
      refine ⟨⟨?_, ?_, ?_, ?_⟩, ?_⟩
      · intro topic
        simp [h.subscribed]
      · intro topic
        have htemporary := (h.eligible _ hleft.2).temporary
        simp only [InsertionSet.mem_delete, h.tracked]
        by_cases heq : topic = sub.topic
        · simp [heq, htemporary]
        · simp [heq]
      · intro topic htopic
        exact h.eligible topic (InsertionSet.mem_delete.1 htopic).2
      · exact (InsertionSet.size_delete_le _ _).trans h.capped
      · intro topic
        rw [InsertionSet.mem_delete]
        by_cases heq : sub.topic = topic
        · subst heq
          simp [hleft.1, hempty]
        · simp [heq, Ne.symm heq]
    · rename_i hmore
      refine ⟨h, fun topic => (and_iff_left_of_imp ?_).symm⟩
      rintro - ⟨⟨-, rfl⟩, hnone⟩
      exact hmore hnone

theorem foldl_autoUnsubscribe
    (getSubscribers : JsString → Option (List JsString))
    (subs : List Subscription) :
    ∀ {s : RelayServer}, Inv config s →
      Inv config (subs.foldl
          (RelayServer.autoUnsubscribe getSubscribers) s) ∧
        ∀ topic, topic ∈ (subs.foldl
            (RelayServer.autoUnsubscribe getSubscribers) s).autoTopics.toList ↔
          topic ∈ s.autoTopics.toList ∧
            ¬ ((∃ sub ∈ subs, sub.subscribe = false ∧ sub.topic = topic) ∧
              getSubscribers topic = some []) := by
  induction subs with
  | nil => exact fun h => ⟨h, by simp⟩
  | cons sub subs ih =>
      intro s h
      obtain ⟨hinv, hauto⟩ := h.autoUnsubscribe getSubscribers sub
      obtain ⟨hinv', hauto'⟩ := ih hinv
      refine ⟨hinv', fun topic => ?_⟩
      rw [List.foldl_cons, hauto', hauto]
      rw [List.exists_mem_cons_iff, or_and_right, not_or, and_assoc]

/-- What an event does to the joined topics. -/
theorem step (h : Inv config s) (e : SubscriptionChange) :
    Inv config (s.step config e) ∧
      ∀ topic, topic ∈ (s.step config e).autoTopics.toList ↔
        (topic ∈ s.autoTopics.toList ∨
          topic ∈ (fresh config s.autoTopics.toList e.joined).take
            (config.maxAutoTopics - s.autoTopics.size)) ∧
          ¬ e.Deserted topic := by
  obtain ⟨hinv, hauto⟩ := foldl_autoSubscribe e.subscriptions h
  obtain ⟨hinv', hauto'⟩ :=
    foldl_autoUnsubscribe e.getSubscribers e.subscriptions hinv
  refine ⟨hinv', fun topic => ?_⟩
  rw [RelayServer.step, hauto', hauto, List.mem_append]
  rfl

end Inv

/-! ## Runs -/

section Runs

variable {config : RelayConfig}

/-- The relay has joined no topic that is not wanted. -/
structure ObservedRelay.Inv (config : RelayConfig) (s : ObservedRelay) :
    Prop where
  relay : Relay.Inv config s.relay
  wanted : ∀ topic ∈ s.relay.autoTopics.toList, s.wanted topic = true

/-- The relay has joined all topics that are wanted. -/
def Serves (config : RelayConfig) (s : ObservedRelay) : Prop :=
  ∀ topic, config.Eligible topic → s.wanted topic = true →
    topic ∈ s.relay.autoTopics.toList

theorem ObservedRelay.Inv.start :
    ObservedRelay.Inv config (.start config) where
  relay := Relay.Inv.start config
  wanted := by
    intro topic htopic
    rw [ObservedRelay.start, RelayServer.autoTopics_start] at htopic
    cases htopic

theorem ObservedRelay.Inv.step {s : ObservedRelay}
    (h : ObservedRelay.Inv config s) (e : SubscriptionChange) :
    ObservedRelay.Inv config (s.step config e) := by
  obtain ⟨hinv, hauto⟩ := h.relay.step e
  refine ⟨hinv, fun topic htopic => ?_⟩
  obtain ⟨hjoined, hstays⟩ := (hauto topic).1 htopic
  have hwanted : s.wanted topic = true ∨ topic ∈ e.joined := by
    rcases hjoined with hold | hnew
    · exact Or.inl (h.wanted topic hold)
    · exact Or.inr ((mem_fresh _ _).1 (List.mem_of_mem_take hnew)).1
  simpa [ObservedRelay.step, hstays] using hwanted

/-- After an event the relay serves all wanted topics exactly if the ones over
the cap are deserted. -/
theorem serves_step_iff {s : ObservedRelay} (h : ObservedRelay.Inv config s)
    (hserves : Serves config s) (e : SubscriptionChange) :
    Serves config (s.step config e) ↔ Fits config s e := by
  obtain ⟨-, hauto⟩ := h.relay.step e
  set topics := fresh config s.relay.autoTopics.toList e.joined with htopics
  have hdisjoint := List.disjoint_take_drop
    (nodup_fresh e.joined s.relay.autoTopics.toList : topics.Nodup)
    (le_refl (config.maxAutoTopics - s.relay.autoTopics.size))
  constructor
  · intro hafter topic hrefused
    have hmem := List.mem_of_mem_drop hrefused
    obtain ⟨hjoined, heligible, hnew⟩ := (mem_fresh _ _).1 hmem
    by_contra hstays
    have hwanted : (s.step config e).wanted topic = true := by
      simp [ObservedRelay.step, hjoined, hstays]
    rcases ((hauto topic).1 (hafter topic heligible hwanted)).1 with
      hold | htaken
    · exact hnew hold
    · exact hdisjoint htaken hrefused
  · intro hfits topic heligible hwanted
    obtain ⟨hwanted, hstays⟩ : (s.wanted topic = true ∨ topic ∈ e.joined) ∧
        ¬ e.Deserted topic := by
      simpa [ObservedRelay.step] using hwanted
    refine (hauto topic).2 ⟨?_, hstays⟩
    by_cases hold : topic ∈ s.relay.autoTopics.toList
    · exact Or.inl hold
    · right
      have hjoined := hwanted.resolve_left
        fun h => hold (hserves topic heligible h)
      have hmem : topic ∈ topics :=
        (mem_fresh _ _).2 ⟨hjoined, heligible, hold⟩
      rw [← List.take_append_drop
        (config.maxAutoTopics - s.relay.autoTopics.size) topics] at hmem
      exact (List.mem_append.1 hmem).resolve_right
        fun h => hstays (hfits topic h)

/-- In every state of a run the relay is subscribed to its permanent topics and
to topics that it may join, that are wanted and that are no more than the cap.
It is subscribed to all of these in every state if and only if in every event
the joined topics for which there is no room are deserted. -/
theorem relay_serves_iff (config : RelayConfig)
    (events : List SubscriptionChange) :
    (∀ k,
        (∀ topic ∈ (ObservedRelay.run config
            (events.take k)).relay.subscribed.toList,
          topic ∈ config.permanentTopics ∨ config.Eligible topic ∧
            (ObservedRelay.run config (events.take k)).wanted topic = true) ∧
        (∀ topic ∈ config.permanentTopics,
          topic ∈ (ObservedRelay.run config
            (events.take k)).relay.subscribed.toList) ∧
        (ObservedRelay.run config (events.take k)).relay.autoTopics.size ≤
          config.maxAutoTopics) ∧
      ((∀ k topic, config.Eligible topic →
          (ObservedRelay.run config (events.take k)).wanted topic = true →
          topic ∈ (ObservedRelay.run config
            (events.take k)).relay.subscribed.toList) ↔
        Guarded (ObservedRelay.step config) (Fits config) (.start config)
          events) := by
  have hinv : ∀ k, ObservedRelay.Inv config
      (ObservedRelay.run config (events.take k)) :=
    fun k => exec_invariant_of_forall (fun _ e h => h.step e) _
      ObservedRelay.Inv.start
  constructor
  · intro k
    refine ⟨fun topic htopic => ?_, fun topic htopic => ?_,
      (hinv k).relay.capped⟩
    · have htracked := ((hinv k).relay.subscribed topic).1 htopic
      rcases ((hinv k).relay.tracked topic).1 htracked with hkept | hauto
      · exact Or.inl hkept
      · exact Or.inr ⟨(hinv k).relay.eligible topic hauto,
          (hinv k).wanted topic hauto⟩
    · rw [(hinv k).relay.subscribed, (hinv k).relay.tracked]
      exact Or.inl htopic
  · have hserves : Serves config (.start config) := by
      intro topic _ hwanted
      cases hwanted
    have hgood : ∀ s, (ObservedRelay.Inv config s ∧ Serves config s) →
        Serves config s := fun _ h => h.2
    rw [← forall_exec_take_iff_guarded hgood
      (fun s e h => serves_step_iff h.1 h.2 e)
      (fun s e h hfits => ⟨h.1.step e, (serves_step_iff h.1 h.2 e).2 hfits⟩)
      events _ ⟨ObservedRelay.Inv.start, hserves⟩]
    refine forall_congr' fun k => forall_congr' fun topic => ?_
    refine forall_congr' fun heligible => forall_congr' fun _ => ?_
    rw [(hinv k).relay.subscribed, (hinv k).relay.tracked]
    exact or_iff_right heligible.temporary

end Runs

end Collabswarm.Relay
