import Mathlib.Tactic
import Collabswarm.Index.IndexManager
import Collabswarm.Index.Sorting

/-!
# Live queries

A subscription of an `IndexManager` runs its query once when it is made and
again whenever the index is said to have changed.  A query reads the storage
twice, at moments of its own, and reports its result later, if the subscription
is still there.  The results of one subscription arrive in the order in which
its queries settle.
-/

namespace Collabswarm.Index

/-- `QueryOptions`; without a sort the list of clauses is empty. -/
structure QueryOptions where
  indexName : Option JsString
  collectionPrefix : Option JsString
  filters : List FieldFilter
  sort : List SortClause
  limit : Option ℤ
  offset : Option ℤ

/-- `QueryResult`. -/
structure QueryResult where
  documents : List Entry
  totalCount : ℕ

/-- The method `query` of an `IndexStorage` with contents of a type. -/
def StorageQuery (St : Type) : Type :=
  St → (indexName : JsString) → List FieldFilter → List SortClause →
    (limit offset : Option ℤ) → Except QueryError (List Entry)

/-- A storage and the definitions of its indexes. -/
structure QuerySetting (St : Type) where
  storageQuery : StorageQuery St
  definitions : InsertionMap JsString IndexDefinition

/-- A call of `query` for a subscription: the index that it resolved, what its
two reads of the storage returned so far, and whether its continuation has
run. -/
structure RunningQuery where
  subscription : ℕ
  options : QueryOptions
  indexName : Option JsString
  allEntries : Option (Except QueryError (List Entry))
  paginatedEntries : Option (Except QueryError (List Entry))
  settled : Bool

/-- The contents of the storage, the subscriptions, the calls of `query` in the
order in which they were made, what each subscription has received, and whether
the subscribers were notified since the last change. -/
structure LiveQueries (St : Type) where
  contents : St
  subscriptions : InsertionMap ℕ QueryOptions
  nextSubscriptionId : ℕ
  queries : List RunningQuery
  received : ℕ → List QueryResult
  notified : Bool

/-- The storage changes, the subscribers are notified, a subscription is made or
ended, a query reads the storage, or its continuation runs. -/
inductive LiveEvent (St : Type) where
  | write (change : St → St)
  | notify
  | subscribe (options : QueryOptions)
  | unsubscribe (id : ℕ)
  | readAll (query : ℕ)
  | readPage (query : ℕ)
  | settle (query : ℕ)

/-- The second read is made. -/
def QueryOptions.paginated (options : QueryOptions) : Bool :=
  options.limit.isSome || options.offset.any (0 < ·)

/-- What the promise of a call settles with, as soon as it does. -/
def RunningQuery.outcome (q : RunningQuery) :
    Option (Except QueryError QueryResult) :=
  match q.indexName with
  | none => some (.ok ⟨[], 0⟩)
  | some _ =>
      if q.options.paginated then
        match q.allEntries, q.paginatedEntries with
        | some (.error e), _ => some (.error e)
        | _, some (.error e) => some (.error e)
        | some (.ok all), some (.ok page) => some (.ok ⟨page, all.length⟩)
        | _, _ => none
      else
        match q.allEntries with
        | some (.error e) => some (.error e)
        | some (.ok all) => some (.ok ⟨all, all.length⟩)
        | none => none

namespace QuerySetting

variable {St : Type} (Q : QuerySetting St)

/-- `_resolveIndexName`. -/
def resolveIndexName (options : QueryOptions) : Option JsString :=
  match options.indexName.filter (· ≠ []) with
  | some indexName =>
      if (Q.definitions.get? indexName).isSome then some indexName else none
  | none =>
      ((options.collectionPrefix.filter (· ≠ [])).bind fun collectionPrefix =>
        (Q.definitions.entries.find? fun e =>
          e.2.collectionPrefix = collectionPrefix).map Prod.fst) <|>
        Q.definitions.keys.head?

/-- The read of all entries. -/
def allAt (st : St) (options : QueryOptions) (indexName : JsString) :
    Except QueryError (List Entry) :=
  Q.storageQuery st indexName options.filters options.sort none none

/-- The read of one page. -/
def pageAt (st : St) (options : QueryOptions) (indexName : JsString) :
    Except QueryError (List Entry) :=
  Q.storageQuery st indexName options.filters options.sort options.limit
    options.offset

/-- `query`, on contents that do not change meanwhile. -/
def query (st : St) (options : QueryOptions) :
    Except QueryError QueryResult :=
  match Q.resolveIndexName options with
  | none => .ok ⟨[], 0⟩
  | some indexName => do
      let all ← Q.allAt st options indexName
      let page ← (if options.paginated then Q.pageAt st options indexName
        else .ok all)
      .ok ⟨page, all.length⟩

/-- A call of `query` up to its first await. -/
def launch (id : ℕ) (options : QueryOptions) : RunningQuery where
  subscription := id
  options := options
  indexName := Q.resolveIndexName options
  allEntries := none
  paginatedEntries := none
  settled := false

/-- No subscriptions. -/
def idle (contents : St) : LiveQueries St where
  contents := contents
  subscriptions := InsertionMap.empty
  nextSubscriptionId := 1
  queries := []
  received _ := []
  notified := true

/-- Start a query for a subscription. -/
def runQuery (s : LiveQueries St) (e : ℕ × QueryOptions) : LiveQueries St :=
  { s with queries := s.queries ++ [Q.launch e.1 e.2] }

/-- `_notifySubscribers`. -/
def notifySubscribers (s : LiveQueries St) : LiveQueries St :=
  s.subscriptions.entries.foldl Q.runQuery s

/-- `subscribe`. -/
def subscribe (s : LiveQueries St) (options : QueryOptions) : LiveQueries St :=
  Q.runQuery
    { s with
      subscriptions := s.subscriptions.set s.nextSubscriptionId options
      nextSubscriptionId := s.nextSubscriptionId + 1 }
    (s.nextSubscriptionId, options)

/-- A result is reported to a subscription that is still there. -/
def report (s : LiveQueries St) (id : ℕ)
    (outcome : Except QueryError QueryResult) : ℕ → List QueryResult :=
  match s.subscriptions.get? id, outcome with
  | some _, .ok result =>
      Function.update s.received id (s.received id ++ [result])
  | _, _ => s.received

/-- The continuation of a query. -/
def settle (s : LiveQueries St) (i : ℕ) (q : RunningQuery) : LiveQueries St :=
  match q.outcome with
  | none => s
  | some outcome =>
      { s with
        queries := s.queries.set i { q with settled := true }
        received := report s q.subscription outcome }

/-- One event.  A query that has settled reads no more. -/
def step (s : LiveQueries St) : LiveEvent St → LiveQueries St
  | .write change => { s with contents := change s.contents, notified := false }
  | .notify => { Q.notifySubscribers s with notified := true }
  | .subscribe options => Q.subscribe s options
  | .unsubscribe id =>
      { s with subscriptions := s.subscriptions.erase id }
  | .readAll i =>
      match s.queries[i]? with
      | some q =>
          if q.settled ∨ q.allEntries.isSome then s
          else
            { s with
              queries := s.queries.set i
                { q with
                  allEntries := q.indexName.map (Q.allAt s.contents q.options) } }
      | none => s
  | .readPage i =>
      match s.queries[i]? with
      | some q =>
          if q.settled ∨ q.paginatedEntries.isSome then s
          else
            { s with
              queries := s.queries.set i
                { q with
                  paginatedEntries :=
                    q.indexName.map (Q.pageAt s.contents q.options) } }
      | none => s
  | .settle i =>
      match s.queries[i]? with
      | some q => if q.settled then s else settle s i q
      | none => s

/-! ## The latest query of a subscription -/

/-- The query was started for the subscription, and none after it. -/
structure Latest (queries : List RunningQuery) (id i : ℕ) (q : RunningQuery) :
    Prop where
  at_index : queries[i]? = some q
  subscription : q.subscription = id
  last : ∀ j q', i < j → queries[j]? = some q' → q'.subscription ≠ id

omit Q in
theorem Latest.unique {queries : List RunningQuery} {id i j : ℕ}
    {q q' : RunningQuery} (h : Latest queries id i q)
    (h' : Latest queries id j q') : i = j := by
  rcases Nat.lt_trichotomy i j with hlt | heq | hlt
  · exact absurd h'.subscription (h.last j q' hlt h'.at_index)
  · exact heq
  · exact absurd h.subscription (h'.last i q hlt h.at_index)

omit Q in
theorem latest_append {queries : List RunningQuery} (q : RunningQuery) :
    Latest (queries ++ [q]) q.subscription queries.length q where
  at_index := by simp
  subscription := rfl
  last j q' hj hq' := by
    have hlt := (List.getElem?_eq_some_iff.1 hq').1
    rw [List.length_append, List.length_singleton] at hlt
    omega

omit Q in
theorem Latest.append {queries : List RunningQuery} {id i : ℕ}
    {q q' : RunningQuery} (h : Latest queries id i q)
    (hne : q'.subscription ≠ id) : Latest (queries ++ [q']) id i q where
  at_index := by
    have hlt := (List.getElem?_eq_some_iff.1 h.at_index).1
    rw [List.getElem?_append_left hlt, h.at_index]
  subscription := h.subscription
  last j q'' hj hq'' := by
    rcases getElem?_concat hq'' with ⟨-, hold⟩ | ⟨-, rfl⟩
    · exact h.last j q'' hj hold
    · exact hne

omit Q in
/-- A query that changes but stays with its subscription. -/
theorem Latest.set {queries : List RunningQuery} {id i j : ℕ}
    {q q' q'' : RunningQuery} (h : Latest queries id i q)
    (hq' : queries[j]? = some q')
    (hsame : q''.subscription = q'.subscription) :
    Latest (queries.set j q'') id i (if i = j then q'' else q) where
  at_index := by
    have hlt := (List.getElem?_eq_some_iff.1 hq').1
    by_cases hij : i = j
    · subst hij
      rw [if_pos rfl, List.getElem?_set_self hlt]
    · rw [if_neg hij, List.getElem?_set_ne (Ne.symm hij), h.at_index]
  subscription := by
    by_cases hij : i = j
    · subst hij
      obtain rfl := Option.some_injective _ (h.at_index.symm.trans hq')
      rw [if_pos rfl, hsame, h.subscription]
    · rw [if_neg hij, h.subscription]
  last k q₀ hk hq₀ := by
    rcases getElem?_set_cases hq₀ with ⟨rfl, rfl⟩ | hold
    · rw [hsame]
      exact h.last j q' hk hq'
    · exact h.last k q₀ hk hold

/-- Whatever the query has read is what the contents have. -/
def Current (st : St) (q : RunningQuery) : Prop :=
  ∀ indexName, q.indexName = some indexName →
    (∀ all, q.allEntries = some all →
      all = Q.allAt st q.options indexName) ∧
    ∀ page, q.paginatedEntries = some page →
      page = Q.pageAt st q.options indexName

theorem current_launch (st : St) (id : ℕ) (options : QueryOptions) :
    Q.Current st (Q.launch id options) := by
  intro indexName _
  constructor
  · intro all hall
    cases hall
  · intro page hpage
    cases hpage

variable {Q}

/-- A query that read the contents of one moment reports what `query` returns
for them. -/
theorem Current.outcome_eq {st : St} {q : RunningQuery} (h : Q.Current st q)
    (hindex : q.indexName = Q.resolveIndexName q.options)
    {outcome : Except QueryError QueryResult}
    (houtcome : q.outcome = some outcome) {result : QueryResult}
    (hresult : Q.query st q.options = .ok result) : outcome = .ok result := by
  unfold RunningQuery.outcome at houtcome
  unfold query at hresult
  rw [← hindex] at hresult
  cases hname : q.indexName with
  | none =>
      rw [hname] at houtcome hresult
      cases houtcome
      exact hresult
  | some indexName =>
      obtain ⟨hall, hpage⟩ := h indexName hname
      rw [hname] at houtcome hresult
      dsimp only at houtcome hresult
      obtain ⟨all, hallAt, hrest⟩ := exists_ok_of_bind hresult
      obtain ⟨page, hpageAt, hok⟩ := exists_ok_of_bind hrest
      cases hok
      cases hreadAll : q.allEntries with
      | none =>
          rw [hreadAll] at houtcome
          split_ifs at houtcome with hpaginated
          rw [if_pos hpaginated] at hpageAt
          cases hreadPage : q.paginatedEntries with
          | none =>
              rw [hreadPage] at houtcome
              cases houtcome
          | some read =>
              rw [hreadPage, hpage read hreadPage, hpageAt] at houtcome
              cases houtcome
      | some read =>
          rw [hreadAll, hall read hreadAll, hallAt] at houtcome
          split_ifs at houtcome with hpaginated
          · rw [if_pos hpaginated] at hpageAt
            cases hreadPage : q.paginatedEntries with
            | none =>
                rw [hreadPage] at houtcome
                cases houtcome
            | some read =>
                rw [hreadPage, hpage read hreadPage, hpageAt] at houtcome
                cases houtcome
                rfl
          · rw [if_neg hpaginated] at hpageAt
            cases hpageAt
            cases houtcome
            rfl

/-! ## The invariant -/

variable (Q)

/-- No query of the same subscription that was started later has settled. -/
def InOrder (s : LiveQueries St) : LiveEvent St → Prop
  | .settle i => ∀ q ∈ s.queries[i]?, ∀ q' ∈ s.queries.drop (i + 1),
      q'.subscription = q.subscription → q'.settled = false
  | _ => True

/-- The latest query of a subscription asks what the subscription asks, has read
nothing but the contents since the last notification, and its result is the
last one that the subscription has received. -/
structure LatestKnown (s : LiveQueries St) (id : ℕ) (options : QueryOptions)
    (i : ℕ) (q : RunningQuery) : Prop where
  latest : Latest s.queries id i q
  options_eq : q.options = options
  indexName_eq : q.indexName = Q.resolveIndexName options
  current : s.notified = true → Q.Current s.contents q
  last_received : ∀ result, q.settled = true →
    q.outcome = some (.ok result) → (s.received id).getLast? = some result

instance decidableInOrder (s : LiveQueries St) :
    (e : LiveEvent St) → Decidable (InOrder s e)
  | .settle i =>
      inferInstanceAs (Decidable (∀ q ∈ s.queries[i]?,
        ∀ q' ∈ s.queries.drop (i + 1),
          q'.subscription = q.subscription → q'.settled = false))
  | .write _ => isTrue trivial
  | .notify => isTrue trivial
  | .subscribe _ => isTrue trivial
  | .unsubscribe _ => isTrue trivial
  | .readAll _ => isTrue trivial
  | .readPage _ => isTrue trivial

/-- Every subscription has a latest query; what has settled has an outcome. -/
structure Inv (s : LiveQueries St) : Prop where
  fresh : ∀ id ∈ s.subscriptions.keys, id < s.nextSubscriptionId
  known : ∀ id options, s.subscriptions.get? id = some options →
    ∃ i q, Q.LatestKnown s id options i q
  outcome : ∀ q ∈ s.queries, q.settled = true → ∃ outcome, q.outcome = some outcome

variable {Q} {s : LiveQueries St}

theorem inv_idle (contents : St) : Q.Inv (idle contents) where
  fresh id hid := by cases hid
  known id options h := by cases h
  outcome q hq := by cases hq

theorem latestKnown_launch (s : LiveQueries St) (id : ℕ)
    (options : QueryOptions) :
    Q.LatestKnown (Q.runQuery s (id, options)) id options s.queries.length
      (Q.launch id options) where
  latest := latest_append (Q.launch id options)
  options_eq := rfl
  indexName_eq := rfl
  current _ := Q.current_launch s.contents id options
  last_received result hsettled := by cases hsettled

theorem LatestKnown.runQuery {id i : ℕ} {options : QueryOptions}
    {q : RunningQuery} (h : Q.LatestKnown s id options i q)
    {e : ℕ × QueryOptions} (hne : e.1 ≠ id) :
    Q.LatestKnown (Q.runQuery s e) id options i q where
  latest := h.latest.append hne
  options_eq := h.options_eq
  indexName_eq := h.indexName_eq
  current := h.current
  last_received := h.last_received

theorem outcome_runQuery
    (h : ∀ q ∈ s.queries, q.settled = true →
      ∃ outcome, q.outcome = some outcome) (e : ℕ × QueryOptions) :
    ∀ q ∈ (Q.runQuery s e).queries, q.settled = true →
      ∃ outcome, q.outcome = some outcome := by
  intro q hq hsettled
  rcases List.mem_append.1 hq with hq | hq
  · exact h q hq hsettled
  · rw [List.mem_singleton.1 hq] at hsettled
    cases hsettled

theorem Inv.subscribe (h : Q.Inv s) (options : QueryOptions) :
    Q.Inv (Q.subscribe s options) where
  fresh id hid := by
    rcases (InsertionMap.mem_keys_set _).1 hid with rfl | hid
    · exact Nat.lt_succ_self _
    · exact Nat.lt_succ_of_lt (h.fresh id hid)
  known id options' hid := by
    by_cases hnew : id = s.nextSubscriptionId
    · subst hnew
      have hoptions : options = options' := by
        have hget := InsertionMap.get?_set_self s.subscriptions
          s.nextSubscriptionId options
        exact Option.some_injective _ (hget.symm.trans hid)
      subst hoptions
      exact ⟨_, _, latestKnown_launch _ _ _⟩
    · have hold : s.subscriptions.get? id = some options' :=
        (InsertionMap.get?_set_of_ne s.subscriptions options hnew).symm.trans
          hid
      obtain ⟨i, q, hknown⟩ := h.known id options' hold
      have hkept : Q.LatestKnown
          { s with
            subscriptions := s.subscriptions.set s.nextSubscriptionId options
            nextSubscriptionId := s.nextSubscriptionId + 1 }
          id options' i q :=
        ⟨hknown.latest, hknown.options_eq, hknown.indexName_eq,
          hknown.current, hknown.last_received⟩
      exact ⟨i, q, hkept.runQuery (Ne.symm hnew)⟩
  outcome := outcome_runQuery h.outcome _

theorem Inv.unsubscribe (h : Q.Inv s) (id : ℕ) :
    Q.Inv { s with subscriptions := s.subscriptions.erase id } where
  fresh id' hid' := by
    rw [InsertionMap.keys_erase] at hid'
    exact h.fresh id' (List.mem_of_mem_filter hid')
  known id' options hid' := by
    rw [InsertionMap.get?_erase] at hid'
    split_ifs at hid'
    obtain ⟨i, q, hknown⟩ := h.known id' options hid'
    exact ⟨i, q, hknown.latest, hknown.options_eq, hknown.indexName_eq,
      hknown.current, hknown.last_received⟩
  outcome := h.outcome

theorem Inv.write (h : Q.Inv s) (change : St → St) :
    Q.Inv { s with contents := change s.contents, notified := false } where
  fresh := h.fresh
  known id options hid := by
    obtain ⟨i, q, hknown⟩ := h.known id options hid
    refine ⟨i, q, hknown.latest, hknown.options_eq, hknown.indexName_eq, ?_,
      hknown.last_received⟩
    intro hnotified
    cases hnotified
  outcome := h.outcome

/-! ## Notifications -/

/-- The queries are started one after the other, each for a subscription of its
own. -/
theorem latest_foldl_runQuery (es : List (ℕ × QueryOptions)) :
    ∀ s : LiveQueries St, (es.map Prod.fst).Nodup →
      (∀ e ∈ es, ∃ i,
        Latest (es.foldl Q.runQuery s).queries e.1 i (Q.launch e.1 e.2)) ∧
      ∀ id i q, id ∉ es.map Prod.fst → Latest s.queries id i q →
        Latest (es.foldl Q.runQuery s).queries id i q := by
  induction es with
  | nil =>
      intro s _
      exact ⟨fun e he => absurd he (by simp), fun id i q _ h => h⟩
  | cons e es ih =>
      intro s hnodup
      rw [List.map_cons, List.nodup_cons] at hnodup
      obtain ⟨hstarted, hkept⟩ := ih (Q.runQuery s e) hnodup.2
      rw [List.foldl_cons]
      constructor
      · intro e' he'
        rcases List.mem_cons.1 he' with rfl | he'
        · exact ⟨_, hkept _ _ _ hnodup.1 (latest_append (Q.launch e'.1 e'.2))⟩
        · exact hstarted e' he'
      · intro id i q hid h
        rw [List.map_cons, List.mem_cons, not_or] at hid
        exact hkept id i q hid.2 (h.append (Ne.symm hid.1))

theorem foldl_runQuery (es : List (ℕ × QueryOptions)) :
    ∀ s : LiveQueries St,
      (∀ q ∈ s.queries, q.settled = true →
        ∃ outcome, q.outcome = some outcome) →
      (∀ q ∈ (es.foldl Q.runQuery s).queries, q.settled = true →
        ∃ outcome, q.outcome = some outcome) ∧
      ∃ queries, es.foldl Q.runQuery s = { s with queries } := by
  induction es with
  | nil =>
      intro s h
      exact ⟨h, s.queries, rfl⟩
  | cons e es ih =>
      intro s h
      obtain ⟨houtcome, queries, heq⟩ :=
        ih (Q.runQuery s e) (outcome_runQuery h e)
      exact ⟨houtcome, queries, heq⟩

theorem Inv.notify (h : Q.Inv s) :
    Q.Inv { Q.notifySubscribers s with notified := true } := by
  obtain ⟨houtcome, queries, heq⟩ :=
    foldl_runQuery (Q := Q) s.subscriptions.entries s h.outcome
  obtain ⟨hstarted, -⟩ :=
    latest_foldl_runQuery (Q := Q) s.subscriptions.entries s
      s.subscriptions.nodup
  unfold notifySubscribers
  rw [heq] at houtcome hstarted ⊢
  refine ⟨h.fresh, ?_, houtcome⟩
  intro id options hid
  obtain ⟨i, hlatest⟩ :=
    hstarted (id, options) ((s.subscriptions.mem_entries_iff).2 hid)
  exact ⟨i, Q.launch id options, hlatest, rfl, rfl,
    fun _ => Q.current_launch s.contents id options,
    fun result hsettled => by cases hsettled⟩

/-! ## Reading and settling -/

/-- A query that goes on. -/
structure GoesOn (q q' : RunningQuery) : Prop where
  subscription_eq : q'.subscription = q.subscription
  options_eq : q'.options = q.options
  indexName_eq : q'.indexName = q.indexName

theorem LatestKnown.set {id i j : ℕ} {options : QueryOptions}
    {q q' q₀ : RunningQuery} (h : Q.LatestKnown s id options j q₀)
    (hi : s.queries[i]? = some q) (hgoes : GoesOn q q')
    (hcurrent : Q.Current s.contents q → Q.Current s.contents q')
    {received : ℕ → List QueryResult}
    (hself : j = i → ∀ result, q'.settled = true →
      q'.outcome = some (.ok result) →
        (received id).getLast? = some result)
    (hother : j ≠ i → q₀.settled = true → received id = s.received id) :
    Q.LatestKnown { s with queries := s.queries.set i q', received } id options
      j (if j = i then q' else q₀) := by
  have hlatest := h.latest.set hi hgoes.subscription_eq
  by_cases hij : j = i
  · subst hij
    obtain rfl := Option.some_injective _ (h.latest.at_index.symm.trans hi)
    rw [if_pos rfl] at hlatest ⊢
    exact ⟨hlatest, hgoes.options_eq.trans h.options_eq,
      hgoes.indexName_eq.trans h.indexName_eq,
      fun hnotified => hcurrent (h.current hnotified), hself rfl⟩
  · rw [if_neg hij] at hlatest ⊢
    refine ⟨hlatest, h.options_eq, h.indexName_eq, h.current, ?_⟩
    intro result hsettled houtcome
    change (received id).getLast? = some result
    rw [hother hij hsettled]
    exact h.last_received result hsettled houtcome

/-- A query that has not settled reads what the contents have. -/
theorem Inv.read (h : Q.Inv s) {i : ℕ} {q q' : RunningQuery}
    (hi : s.queries[i]? = some q) (hgoes : GoesOn q q')
    (hsettled : q'.settled = false)
    (hcurrent : Q.Current s.contents q → Q.Current s.contents q') :
    Q.Inv { s with queries := s.queries.set i q' } where
  fresh := h.fresh
  known id options hid := by
    obtain ⟨j, q₀, hknown⟩ := h.known id options hid
    refine ⟨j, _, hknown.set hi hgoes hcurrent ?_ fun _ _ => rfl⟩
    intro _ result hsettled' _
    rw [hsettled] at hsettled'
    cases hsettled'
  outcome q₀ hq₀ hsettled₀ := by
    rcases List.mem_or_eq_of_mem_set hq₀ with hold | rfl
    · exact h.outcome q₀ hold hsettled₀
    · rw [hsettled] at hsettled₀
      cases hsettled₀

theorem Current.readAll {st : St} {q : RunningQuery} (h : Q.Current st q) :
    Q.Current st
      { q with allEntries := q.indexName.map (Q.allAt st q.options) } := by
  intro indexName hname
  refine ⟨?_, (h indexName hname).2⟩
  intro all hall
  have hname' : q.indexName = some indexName := hname
  simp only [hname', Option.map_some, Option.some.injEq] at hall
  exact hall.symm

theorem Current.readPage {st : St} {q : RunningQuery} (h : Q.Current st q) :
    Q.Current st
      { q with
        paginatedEntries := q.indexName.map (Q.pageAt st q.options) } := by
  intro indexName hname
  refine ⟨(h indexName hname).1, ?_⟩
  intro page hpage
  have hname' : q.indexName = some indexName := hname
  simp only [hname', Option.map_some, Option.some.injEq] at hpage
  exact hpage.symm

theorem report_ok {id : ℕ} {options : QueryOptions}
    (hid : s.subscriptions.get? id = some options) (result : QueryResult) :
    report s id (.ok result) id = s.received id ++ [result] := by
  simp only [report, hid, Function.update_self]

theorem report_of_ne {id id' : ℕ} (outcome : Except QueryError QueryResult)
    (hne : id' ≠ id) : report s id outcome id' = s.received id' := by
  cases hid : s.subscriptions.get? id with
  | none => simp only [report, hid]
  | some options =>
      cases outcome with
      | error e => simp only [report, hid]
      | ok result => simp only [report, hid, Function.update_of_ne hne]

theorem report_of_none {id : ℕ} (hid : s.subscriptions.get? id = none)
    (id' : ℕ) (outcome : Except QueryError QueryResult) :
    report s id' outcome id = s.received id := by
  by_cases hne : id = id'
  · subst hne
    simp only [report, hid]
  · exact report_of_ne outcome hne

theorem Inv.settle (h : Q.Inv s) {i : ℕ} {q : RunningQuery}
    (hi : s.queries[i]? = some q)
    (horder : ∀ q' ∈ s.queries.drop (i + 1),
      q'.subscription = q.subscription → q'.settled = false) :
    Q.Inv (settle s i q) := by
  unfold QuerySetting.settle
  cases houtcome : q.outcome with
  | none => exact h
  | some outcome =>
      refine ⟨h.fresh, ?_, ?_⟩
      · intro id options hid
        have hid' : s.subscriptions.get? id = some options := hid
        obtain ⟨j, q₀, hknown⟩ := h.known id options hid'
        have hgoes : GoesOn q { q with settled := true } := ⟨rfl, rfl, rfl⟩
        refine ⟨j, _, hknown.set hi hgoes (fun hcurrent => hcurrent) ?_ ?_⟩
        · intro hij result _ hresult
          subst hij
          obtain rfl :=
            Option.some_injective _ (hknown.latest.at_index.symm.trans hi)
          have hsame : some outcome = some (.ok result) :=
            houtcome.symm.trans hresult
          cases hsame
          rw [hknown.latest.subscription, report_ok hid' result,
            List.getLast?_concat]
        · intro hij hsettled
          have hsub : q.subscription ≠ id := by
            rintro rfl
            rcases Nat.lt_or_gt_of_ne hij with hlt | hlt
            · exact hknown.latest.last i q hlt hi rfl
            · have hmem : q₀ ∈ s.queries.drop (i + 1) := by
                refine List.mem_of_getElem? (i := j - (i + 1)) ?_
                rw [List.getElem?_drop, ← hknown.latest.at_index]
                congr 1
                omega
              rw [horder q₀ hmem hknown.latest.subscription] at hsettled
              cases hsettled
          exact report_of_ne outcome (Ne.symm hsub)
      · intro q₀ hq₀ hsettled
        rcases List.mem_or_eq_of_mem_set hq₀ with hold | rfl
        · exact h.outcome q₀ hold hsettled
        · exact ⟨outcome, houtcome⟩

theorem Inv.step (h : Q.Inv s) {e : LiveEvent St} (horder : InOrder s e) :
    Q.Inv (Q.step s e) := by
  cases e with
  | write change => exact h.write change
  | notify => exact h.notify
  | subscribe options => exact h.subscribe options
  | unsubscribe id => exact h.unsubscribe id
  | readAll i =>
      simp only [QuerySetting.step]
      cases hi : s.queries[i]? with
      | none => exact h
      | some q =>
          dsimp only
          split_ifs with hskip
          · exact h
          · rw [not_or, Bool.not_eq_true] at hskip
            exact h.read hi ⟨rfl, rfl, rfl⟩ hskip.1 Current.readAll
  | readPage i =>
      simp only [QuerySetting.step]
      cases hi : s.queries[i]? with
      | none => exact h
      | some q =>
          dsimp only
          split_ifs with hskip
          · exact h
          · rw [not_or, Bool.not_eq_true] at hskip
            exact h.read hi ⟨rfl, rfl, rfl⟩ hskip.1 Current.readPage
  | settle i =>
      simp only [QuerySetting.step]
      cases hi : s.queries[i]? with
      | none => exact h
      | some q =>
          dsimp only
          split_ifs
          · exact h
          · exact h.settle hi (horder q hi)

/-! ## Subscriptions that have ended -/

/-- The subscription has ended, with these results. -/
def Ended (s : LiveQueries St) (id : ℕ) (results : List QueryResult) : Prop :=
  id < s.nextSubscriptionId ∧ s.subscriptions.get? id = none ∧
    s.received id = results

theorem Ended.step {id : ℕ} {results : List QueryResult}
    (h : Ended s id results) (e : LiveEvent St) :
    Ended (Q.step s e) id results := by
  obtain ⟨hlt, hnone, hreceived⟩ := h
  cases e with
  | write change => exact ⟨hlt, hnone, hreceived⟩
  | notify =>
      obtain ⟨queries, heq⟩ : ∃ queries,
          Q.notifySubscribers s = { s with queries } := by
        unfold notifySubscribers
        induction s.subscriptions.entries generalizing s with
        | nil => exact ⟨s.queries, rfl⟩
        | cons e es ih => exact ih (s := Q.runQuery s e) hlt hnone hreceived
      simp only [QuerySetting.step, heq]
      exact ⟨hlt, hnone, hreceived⟩
  | subscribe options =>
      refine ⟨Nat.lt_succ_of_lt hlt, ?_, hreceived⟩
      exact (InsertionMap.get?_set_of_ne _ options (Nat.ne_of_lt hlt)).trans
        hnone
  | unsubscribe id' =>
      refine ⟨hlt, ?_, hreceived⟩
      change (s.subscriptions.erase id').get? id = none
      rw [InsertionMap.get?_erase, hnone, ite_self]
  | readAll i =>
      simp only [QuerySetting.step]
      split
      · split_ifs <;> exact ⟨hlt, hnone, hreceived⟩
      · exact ⟨hlt, hnone, hreceived⟩
  | readPage i =>
      simp only [QuerySetting.step]
      split
      · split_ifs <;> exact ⟨hlt, hnone, hreceived⟩
      · exact ⟨hlt, hnone, hreceived⟩
  | settle i =>
      simp only [QuerySetting.step]
      split
      · split_ifs
        · exact ⟨hlt, hnone, hreceived⟩
        · unfold settle
          split
          · exact ⟨hlt, hnone, hreceived⟩
          · exact ⟨hlt, hnone, (report_of_none hnone _ _).trans hreceived⟩
      · exact ⟨hlt, hnone, hreceived⟩

/-! ## Runs -/

/-- In every run of a storage with subscriptions, a subscription receives
nothing once it has ended; and if no query settles after a later one of its
subscription, then, once all queries have settled and nothing has changed since
the last notification, the last result of every subscription is what its query
returns for the contents, unless that throws. -/
theorem live_queries (Q : QuerySetting St) (contents : St)
    (events : List (LiveEvent St)) :
    let s := exec Q.step (idle contents) events
    (∀ id < s.nextSubscriptionId, ∀ more,
      (exec Q.step s (.unsubscribe id :: more)).received id =
        s.received id) ∧
      (Guarded Q.step InOrder (idle contents) events →
        (∀ q ∈ s.queries, q.settled = true) → s.notified = true →
          ∀ id options, s.subscriptions.get? id = some options →
            ∀ result, Q.query s.contents options = .ok result →
              (s.received id).getLast? = some result) := by
  intro s
  constructor
  · intro id hlt more
    have hended : Ended (Q.step s (.unsubscribe id)) id (s.received id) := by
      refine ⟨hlt, ?_, rfl⟩
      change (s.subscriptions.erase id).get? id = none
      rw [InsertionMap.get?_erase, if_pos rfl]
    have hkept : ∀ (t : LiveQueries St) (e : LiveEvent St),
        Ended t id (s.received id) →
          Ended (Q.step t e) id (s.received id) := fun t e h => h.step e
    exact (exec_invariant_of_forall hkept more hended).2.2
  · intro horder hrest hnotified id options hid result hresult
    have hinv : Q.Inv s :=
      exec_invariant (fun _ _ h horder => h.step horder) events _
        (inv_idle contents) horder
    obtain ⟨i, q, hknown⟩ := hinv.known id options hid
    have hq : q ∈ s.queries := List.mem_of_getElem? hknown.latest.at_index
    obtain ⟨outcome, houtcome⟩ := hinv.outcome q hq (hrest q hq)
    have hsame : outcome = .ok result :=
      (hknown.current hnotified).outcome_eq
        (hknown.indexName_eq.trans (by rw [hknown.options_eq])) houtcome
        (by rw [hknown.options_eq, hresult])
    rw [hsame] at houtcome
    exact hknown.last_received result (hrest q hq) houtcome

/-- One index, of a storage that keeps a list of entries, for queries without
filters, sort, limit and offset. -/
def oneIndex : QuerySetting (List Entry) where
  storageQuery entries _ _ _ _ _ := .ok entries
  definitions := InsertionMap.empty.set [1] ⟨[], []⟩

/-- The first query settles before the one that the notification starts. -/
theorem live_queries_notified :
    let options : QueryOptions := ⟨none, none, [], [], none, none⟩
    ((exec oneIndex.step (idle [])
      [.subscribe options, .readAll 0, .write fun _ => [([2], [])], .notify,
        .readAll 1, .settle 0, .settle 1]).received 1).getLast? =
      some ⟨[([2], [])], 1⟩ := by
  intro options
  exact (live_queries oneIndex []
    [.subscribe options, .readAll 0, .write fun _ => [([2], [])], .notify,
      .readAll 1, .settle 0, .settle 1]).2
    (by decide) (by decide) (by decide) 1 options rfl _ rfl

end QuerySetting

end Collabswarm.Index
