import Collabswarm.Index.BloomFilter
import Collabswarm.Support.InsertionMap
import Collabswarm.Support.Transition

/-!
# Gossip of Bloom filters

Peers of one configuration add terms to their local filters and publish them.
A receiver keeps, for each peer, the disjunction of the filters that came from
it.  Messages may be delivered in any order and any number of times, and a
message of the wrong length is ignored.
-/

namespace Collabswarm.Index

open BitString

/-! ## A peer -/

/-- The part of `BloomFilterGossipConfig` that shapes the filters. -/
structure BloomFilterGossipConfig where
  filterSizeInBits : ℕ
  numHashFunctions : ℕ

/-- `BloomFilterGossip`: the configuration, the local filter and the filters of
the other peers. -/
structure BloomFilterGossip (P : Type) where
  config : BloomFilterGossipConfig
  localFilter : BloomFilterCRDT
  peerFilters : InsertionMap P BloomFilterCRDT

namespace BloomFilterGossip

variable {P : Type} [DecidableEq P]

/-- The constructor. -/
def new (config : BloomFilterGossipConfig) :
    Except String (BloomFilterGossip P) := do
  let localFilter ←
    BloomFilterCRDT.new config.filterSizeInBits config.numHashFunctions
  return ⟨config, localFilter, InsertionMap.empty⟩

/-- `addTerm`. -/
def addTerm (g : BloomFilterGossip P) (term : JsString) :
    BloomFilterGossip P :=
  { g with localFilter := g.localFilter.add term }

/-- The message of `publishFilter`. -/
def publishFilter (g : BloomFilterGossip P) : Bytes := g.localFilter.serialize

/-- `onReceiveFilter`.  An exception of `merge` would leave the state as it
is. -/
def onReceiveFilter (g : BloomFilterGossip P) (peerId : P) (data : Bytes) :
    BloomFilterGossip P :=
  match BloomFilterCRDT.deserialize data g.config.filterSizeInBits
      g.config.numHashFunctions with
  | .error _ => g
  | .ok received =>
      match g.peerFilters.get? peerId with
      | some existing =>
          match existing.merge received with
          | .ok merged =>
              { g with peerFilters := g.peerFilters.set peerId merged }
          | .error _ => g
      | none => { g with peerFilters := g.peerFilters.set peerId received }

/-- `queryPeers`. -/
def queryPeers (g : BloomFilterGossip P) (terms : List JsString) : List P :=
  (g.peerFilters.entries.filter fun e => terms.all (e.2.has ·)).map Prod.fst

/-- `getMergedFilter`. -/
def getMergedFilter (g : BloomFilterGossip P) :
    Except String BloomFilterCRDT := do
  let merged ← BloomFilterCRDT.new g.config.filterSizeInBits
    g.config.numHashFunctions
  let merged ← merged.merge g.localFilter
  g.peerFilters.entries.foldlM (fun merged e => merged.merge e.2) merged

/-! ## What a peer keeps -/

/-- All filters of the peer have the shape of its configuration. -/
structure Shaped (config : BloomFilterGossipConfig) (g : BloomFilterGossip P) :
    Prop where
  config_eq : g.config = config
  localFilter : g.localFilter.Shaped config.filterSizeInBits
    config.numHashFunctions
  peerFilters : ∀ p f, g.peerFilters.get? p = some f →
    f.Shaped config.filterSizeInBits config.numHashFunctions

variable {config : BloomFilterGossipConfig} {g : BloomFilterGossip P}

/-- The constructor starts with empty filters. -/
theorem new_ok (h : (new config : Except String (BloomFilterGossip P)) = .ok g) :
    0 < config.filterSizeInBits ∧ 0 < config.numHashFunctions ∧
      g.Shaped config ∧ g.peerFilters = InsertionMap.empty := by
  unfold new BloomFilterCRDT.new BloomFilterCRDT.withBits at h
  split at h
  · cases h
  rename_i hsize
  split at h
  · cases h
  rename_i hhash
  cases h
  refine ⟨Nat.pos_of_ne_zero hsize, Nat.pos_of_ne_zero hhash, ⟨rfl, ⟨rfl, rfl⟩,
    ?_⟩, rfl⟩
  intro p f hf
  cases hf

theorem Shaped.addTerm (h : g.Shaped config) (term : JsString) :
    (g.addTerm term).Shaped config where
  config_eq := h.config_eq
  localFilter := BloomFilterCRDT.shaped_add h.localFilter term
  peerFilters := h.peerFilters

/-- A message of the wrong length is ignored. -/
theorem Shaped.onReceiveFilter_malformed (h : g.Shaped config) (peerId : P)
    {data : Bytes}
    (hdata : data.length ≠ byteLength config.filterSizeInBits) :
    g.onReceiveFilter peerId data = g := by
  obtain ⟨e, he⟩ := BloomFilterCRDT.deserialize_error
    config.numHashFunctions hdata
  rw [onReceiveFilter, h.config_eq, he]

/-- A message of the right length is added to the filter of its sender. -/
theorem Shaped.onReceiveFilter (hsize : 0 < config.filterSizeInBits)
    (hhash : 0 < config.numHashFunctions) (h : g.Shaped config) (peerId : P)
    {data : Bytes}
    (hdata : data.length = byteLength config.filterSizeInBits) :
    ∃ f, g.onReceiveFilter peerId data =
        { g with peerFilters := g.peerFilters.set peerId f } ∧
      f.Shaped config.filterSizeInBits config.numHashFunctions ∧
      f.bits = ((g.peerFilters.get? peerId).map fun existing =>
        orBytes existing.bits data).getD data := by
  obtain ⟨received, hreceived, hshaped, hbits⟩ :=
    BloomFilterCRDT.deserialize_ok hsize hhash hdata
  rw [BloomFilterGossip.onReceiveFilter, h.config_eq, hreceived]
  rcases hget : g.peerFilters.get? peerId with _ | existing
  · exact ⟨received, rfl, hshaped, hbits⟩
  · obtain ⟨merged, hmerged, hmergedShaped, hmergedBits, -, -⟩ :=
      BloomFilterCRDT.merge_ok (h.peerFilters peerId existing hget) hshaped
    dsimp only
    rw [hmerged]
    refine ⟨merged, rfl, hmergedShaped, ?_⟩
    rw [hmergedBits, hbits]
    rfl

theorem Shaped.set (h : g.Shaped config) (peerId : P) {f : BloomFilterCRDT}
    (hf : f.Shaped config.filterSizeInBits config.numHashFunctions) :
    ({ g with peerFilters := g.peerFilters.set peerId f } :
      BloomFilterGossip P).Shaped config where
  config_eq := h.config_eq
  localFilter := h.localFilter
  peerFilters := by
    intro p f' hf'
    rw [InsertionMap.get?_set] at hf'
    split at hf'
    · cases hf'
      exact hf
    · exact h.peerFilters p f' hf'

omit [DecidableEq P] in
/-- Merging filters of one shape one after another. -/
theorem foldlM_merge {size hash : ℕ} (filters : List (P × BloomFilterCRDT))
    (hfilters : ∀ e ∈ filters, e.2.Shaped size hash) :
    ∀ merged : BloomFilterCRDT, merged.Shaped size hash →
      ∃ m, filters.foldlM (fun merged e => merged.merge e.2) merged =
          Except.ok (ε := String) m ∧
        merged.Within m ∧ ∀ e ∈ filters, e.2.Within m := by
  induction filters with
  | nil =>
      intro merged _
      exact ⟨merged, rfl, ⟨rfl, rfl, fun _ h => h⟩, by simp⟩
  | cons e filters ih =>
      intro merged hmerged
      obtain ⟨m, hm, hmShaped, -, hleft, hright⟩ := BloomFilterCRDT.merge_ok
        hmerged (hfilters e List.mem_cons_self)
      obtain ⟨m', hm', hwithin, hall⟩ := ih
        (fun e' he' => hfilters e' (List.mem_cons_of_mem e he')) m hmShaped
      refine ⟨m', ?_, hleft.trans hwithin, ?_⟩
      · rw [List.foldlM_cons, hm]
        exact hm'
      · exact List.forall_mem_cons.2 ⟨hright.trans hwithin, hall⟩

/-- The merged filter contains the local one and those of the peers. -/
theorem Shaped.getMergedFilter (hsize : 0 < config.filterSizeInBits)
    (hhash : 0 < config.numHashFunctions) (h : g.Shaped config) :
    ∃ m, g.getMergedFilter = .ok m ∧ g.localFilter.Within m ∧
      ∀ p f, g.peerFilters.get? p = some f → f.Within m := by
  obtain ⟨empty, hempty, hemptyShaped, -⟩ := BloomFilterCRDT.new_ok hsize hhash
  obtain ⟨start, hstart, hstartShaped, -, -, hlocal⟩ :=
    BloomFilterCRDT.merge_ok hemptyShaped h.localFilter
  have hentries : ∀ e ∈ g.peerFilters.entries,
      e.2.Shaped config.filterSizeInBits config.numHashFunctions :=
    fun e he => h.peerFilters e.1 e.2 (g.peerFilters.mem_entries_iff.1 he)
  obtain ⟨m, hm, hwithin, hall⟩ :=
    foldlM_merge g.peerFilters.entries hentries start hstartShaped
  refine ⟨m, ?_, hlocal.trans hwithin, fun p f hf => ?_⟩
  · rw [BloomFilterGossip.getMergedFilter, h.config_eq, hempty]
    change (empty.merge g.localFilter >>= g.peerFilters.entries.foldlM
      fun merged e => merged.merge e.2) = _
    rw [hstart]
    exact hm
  · exact hall (p, f) (g.peerFilters.mem_entries_iff.2 hf)

/-- A peer whose filter finds all terms is returned. -/
theorem mem_queryPeers {p : P} {f : BloomFilterCRDT} {terms : List JsString}
    (hf : g.peerFilters.get? p = some f)
    (hterms : ∀ t ∈ terms, f.has t = true) : p ∈ g.queryPeers terms := by
  rw [queryPeers, List.mem_map]
  refine ⟨(p, f), List.mem_filter.2 ⟨g.peerFilters.mem_entries_iff.2 hf, ?_⟩,
    rfl⟩
  exact List.all_eq_true.2 hterms

end BloomFilterGossip

/-! ## The network -/

/-- What happens in the network: a peer adds a term or publishes its filter, or
a message that names a sender is delivered. -/
inductive GossipEvent (P : Type) where
  | addTerm (peer : P) (term : JsString)
  | publish (peer : P)
  | deliver (receiver sender : P) (data : Bytes)
  deriving DecidableEq

namespace GossipEvent

variable {P : Type} [DecidableEq P]

/-- The states of all peers after an event. -/
def step (peers : P → BloomFilterGossip P) :
    GossipEvent P → P → BloomFilterGossip P
  | .addTerm p term => Function.update peers p ((peers p).addTerm term)
  | .publish _ => peers
  | .deliver r p data =>
      Function.update peers r ((peers r).onReceiveFilter p data)

/-- The bytes of the message, where the event delivers a message of the right
length from `p` to `r`. -/
def wellFormedFrom (config : BloomFilterGossipConfig) (r p : P) :
    GossipEvent P → Option Bytes
  | .deliver r' p' data =>
      if r' = r ∧ p' = p ∧ data.length = byteLength config.filterSizeInBits then
        some data
      else none
  | _ => none

/-- The messages of the right length that `r` got from `p`. -/
def received (config : BloomFilterGossipConfig) (r p : P)
    (events : List (GossipEvent P)) : List Bytes :=
  events.filterMap (wellFormedFrom config r p)

theorem mem_received {config : BloomFilterGossipConfig} {r p : P}
    {events : List (GossipEvent P)} {data : Bytes} :
    data ∈ received config r p events ↔ .deliver r p data ∈ events ∧
      data.length = byteLength config.filterSizeInBits := by
  rw [received, List.mem_filterMap]
  constructor
  · rintro ⟨e, he, hdata⟩
    cases e with
    | addTerm _ _ => cases hdata
    | publish _ => cases hdata
    | deliver r' p' data' =>
        rw [wellFormedFrom] at hdata
        split at hdata
        · rename_i hmatch
          cases hdata
          obtain ⟨rfl, rfl, hlength⟩ := hmatch
          exact ⟨he, hlength⟩
        · cases hdata
  · rintro ⟨hmem, hlength⟩
    exact ⟨_, hmem, by rw [wellFormedFrom, if_pos ⟨rfl, rfl, hlength⟩]⟩

end GossipEvent

/-- The bitwise disjunction of filters. -/
def joined (config : BloomFilterGossipConfig) (filters : List Bytes) : Bytes :=
  filters.foldl orBytes
    (List.replicate (byteLength config.filterSizeInBits) 0)

section Joined

variable {config : BloomFilterGossipConfig} {filters : List Bytes}

theorem joined_append (filters : List Bytes) (data : Bytes) :
    joined config (filters ++ [data]) = orBytes (joined config filters) data := by
  rw [joined, List.foldl_append, List.foldl_cons, List.foldl_nil, ← joined]

/-- The disjunction has a bit exactly where some filter has it. -/
theorem getBit_joined (config : BloomFilterGossipConfig) (filters : List Bytes)
    (h : ∀ data ∈ filters,
      data.length = byteLength config.filterSizeInBits) :
    (joined config filters).length = byteLength config.filterSizeInBits ∧
      ∀ i, getBit (joined config filters) i = true ↔
        ∃ data ∈ filters, getBit data i = true := by
  induction filters using List.reverseRecOn with
  | nil =>
      refine ⟨List.length_replicate, fun i => ?_⟩
      rw [joined, List.foldl_nil, getBit_replicate]
      simp
  | append_singleton filters data ih =>
      obtain ⟨hlength, hbits⟩ :=
        ih fun d hd => h d (List.mem_append_left _ hd)
      have hdata : data.length = (joined config filters).length := by
        rw [hlength, h data (by simp)]
      rw [joined_append]
      refine ⟨(length_orBytes hdata).trans hlength, fun i => ?_⟩
      rw [getBit_orBytes hdata, Bool.or_eq_true, hbits i]
      simp only [List.mem_append, List.mem_singleton, or_and_right,
        exists_or, exists_eq_left]

/-- The disjunction depends on the set of filters only. -/
theorem joined_congr {filters' : List Bytes}
    (h : ∀ data ∈ filters,
      data.length = byteLength config.filterSizeInBits)
    (hsame : ∀ data, data ∈ filters ↔ data ∈ filters') :
    joined config filters = joined config filters' := by
  obtain ⟨hlength, hbits⟩ := getBit_joined config filters h
  obtain ⟨hlength', hbits'⟩ := getBit_joined config filters'
    fun d hd => h d ((hsame d).2 hd)
  refine ext_getBit (hlength.trans hlength'.symm) fun i => ?_
  rw [Bool.eq_iff_iff, hbits, hbits']
  simp only [hsame]

/-- A single filter is its own disjunction. -/
theorem joined_singleton {data : Bytes}
    (h : data.length = byteLength config.filterSizeInBits) :
    joined config [data] = data := by
  obtain ⟨hlength, hbits⟩ := getBit_joined config [data]
    (by simpa using h)
  refine ext_getBit (hlength.trans h.symm) fun i => ?_
  rw [Bool.eq_iff_iff, hbits]
  simp

end Joined

/-! ## Convergence -/

section Convergence

variable {P : Type} [DecidableEq P] {config : BloomFilterGossipConfig}
  {peers : P → BloomFilterGossip P} {events : List (GossipEvent P)}

open GossipEvent

/-- What the peers hold after a history of events: the disjunction of what they
received from each other, and the terms they added. -/
structure Tracks (config : BloomFilterGossipConfig)
    (events : List (GossipEvent P)) (peers : P → BloomFilterGossip P) :
    Prop where
  shaped : ∀ q, (peers q).Shaped config
  stored : ∀ r p, ((peers r).peerFilters.get? p).map BloomFilterCRDT.bits =
    if received config r p events = [] then none
    else some (joined config (received config r p events))
  added : ∀ p t, .addTerm p t ∈ events → (peers p).localFilter.has t = true

theorem received_append (r p : P) (e : GossipEvent P) :
    received config r p (events ++ [e]) =
      received config r p events ++ (wellFormedFrom config r p e).toList := by
  rw [received, List.filterMap_append, ← received]
  rcases h : wellFormedFrom config r p e with _ | data
  · simp [h]
  · simp [h]

/-- An event that delivers nothing well-formed leaves what is stored. -/
theorem Tracks.stored_append (h : Tracks config events peers)
    {e : GossipEvent P} {r p : P}
    (he : wellFormedFrom config r p e = none) :
    ((peers r).peerFilters.get? p).map BloomFilterCRDT.bits =
      if received config r p (events ++ [e]) = [] then none
      else some (joined config (received config r p (events ++ [e]))) := by
  rw [received_append, he, Option.toList_none, List.append_nil]
  exact h.stored r p

theorem Tracks.addTerm (h : Tracks config events peers) (p : P)
    (term : JsString) :
    Tracks config (events ++ [.addTerm p term])
      (step peers (.addTerm p term)) := by
  have hother : ∀ q, q ≠ p → step peers (.addTerm p term) q = peers q :=
    fun q hq => Function.update_of_ne hq _ _
  have hself : step peers (.addTerm p term) p = (peers p).addTerm term :=
    Function.update_self _ _ _
  refine ⟨fun q => ?_, fun r q => ?_, fun q t ht => ?_⟩
  · by_cases hq : q = p
    · rw [hq, hself]
      exact (h.shaped p).addTerm term
    · rw [hother q hq]
      exact h.shaped q
  · have hsame : (step peers (.addTerm p term) r).peerFilters =
        (peers r).peerFilters := by
      by_cases hr : r = p
      · rw [hr, hself]
        rfl
      · rw [hother r hr]
    rw [hsame]
    exact h.stored_append rfl
  · rcases List.mem_append.1 ht with ht | ht
    · have hold := h.added q t ht
      by_cases hq : q = p
      · subst hq
        rw [hself]
        exact (BloomFilterCRDT.within_add _ term).has hold
      · rw [hother q hq]
        exact hold
    · cases List.mem_singleton.1 ht
      rw [hself]
      exact BloomFilterCRDT.has_add _ term

theorem Tracks.publish (h : Tracks config events peers) (p : P) :
    Tracks config (events ++ [.publish p]) (step peers (.publish p)) := by
  refine ⟨h.shaped, fun r q => h.stored_append rfl, fun q t ht => ?_⟩
  rcases List.mem_append.1 ht with ht | ht
  · exact h.added q t ht
  · cases List.mem_singleton.1 ht

/-- The filter of a sender with one more message. -/
theorem Tracks.joined_deliver (h : Tracks config events peers) (r p : P)
    {data : Bytes}
    (hdata : data.length = byteLength config.filterSizeInBits) :
    (((peers r).peerFilters.get? p).map fun existing =>
        orBytes existing.bits data).getD data =
      joined config (received config r p events ++ [data]) := by
  have hstored := h.stored r p
  rcases hget : (peers r).peerFilters.get? p with _ | existing
  · rw [hget, Option.map_none] at hstored
    split at hstored
    · rename_i hnone
      rw [hnone]
      exact (joined_singleton hdata).symm
    · cases hstored
  · rw [hget, Option.map_some] at hstored
    split at hstored
    · cases hstored
    · rw [joined_append, ← Option.some_inj.1 hstored]
      rfl

/-- A message that is delivered changes the filter of its sender at its
receiver. -/
theorem Tracks.deliver (hsize : 0 < config.filterSizeInBits)
    (hhash : 0 < config.numHashFunctions) (h : Tracks config events peers)
    (r p : P) (data : Bytes) :
    Tracks config (events ++ [.deliver r p data])
      (step peers (.deliver r p data)) := by
  have hadded : ∀ q t, .addTerm q t ∈ events ++ [.deliver r p data] →
      .addTerm q t ∈ events := by
    intro q t ht
    rcases List.mem_append.1 ht with ht | ht
    · exact ht
    · cases List.mem_singleton.1 ht
  have hother : ∀ q, q ≠ r → step peers (.deliver r p data) q = peers q :=
    fun q hq => Function.update_of_ne hq _ _
  have hself : step peers (.deliver r p data) r =
      (peers r).onReceiveFilter p data := Function.update_self _ _ _
  by_cases hdata : data.length = byteLength config.filterSizeInBits
  · obtain ⟨f, hf, hfShaped, hfBits⟩ :=
      (h.shaped r).onReceiveFilter hsize hhash p hdata
    rw [hf] at hself
    refine ⟨fun q => ?_, fun q p' => ?_, fun q t ht => ?_⟩
    · by_cases hq : q = r
      · rw [hq, hself]
        exact (h.shaped r).set p hfShaped
      · rw [hother q hq]
        exact h.shaped q
    · by_cases hq : q = r ∧ p' = p
      · obtain ⟨rfl, rfl⟩ := hq
        have hone : wellFormedFrom config q p' (.deliver q p' data) =
            some data := by
          rw [wellFormedFrom, if_pos ⟨rfl, rfl, hdata⟩]
        rw [hself, InsertionMap.get?_set_self, received_append, hone,
          Option.toList_some, if_neg (List.append_ne_nil_of_right_ne_nil _ (by simp)),
          Option.map_some, hfBits, h.joined_deliver q p' hdata]
      · have hnone : wellFormedFrom config q p' (.deliver r p data) = none := by
          rw [wellFormedFrom, if_neg fun hmatch =>
            hq ⟨hmatch.1.symm, hmatch.2.1.symm⟩]
        have hsame : (step peers (.deliver r p data) q).peerFilters.get? p' =
            (peers q).peerFilters.get? p' := by
          by_cases hqr : q = r
          · subst hqr
            rw [hself, InsertionMap.get?_set_of_ne _ _ fun hp =>
              hq ⟨rfl, hp⟩]
          · rw [hother q hqr]
        rw [hsame]
        exact h.stored_append hnone
    · have hold := h.added q t (hadded q t ht)
      by_cases hq : q = r
      · subst hq
        rw [hself]
        exact hold
      · rw [hother q hq]
        exact hold
  · have hunchanged : step peers (.deliver r p data) = peers := by
      rw [step, (h.shaped r).onReceiveFilter_malformed p hdata]
      exact Function.update_eq_self r peers
    rw [hunchanged]
    refine ⟨h.shaped, fun q p' => ?_, fun q t ht => h.added q t (hadded q t ht)⟩
    refine h.stored_append ?_
    rw [wellFormedFrom, if_neg fun hmatch => hdata hmatch.2.2]

/-- The peers hold what they should after every run. -/
theorem tracks_exec {start : BloomFilterGossip P}
    (hstart : BloomFilterGossip.new config = .ok start)
    (events : List (GossipEvent P)) :
    Tracks config events (exec step (fun _ => start) events) := by
  obtain ⟨hsize, hhash, hshaped, hempty⟩ := BloomFilterGossip.new_ok hstart
  induction events using List.reverseRecOn with
  | nil =>
      refine ⟨fun _ => hshaped, fun r p => ?_, fun p t ht => by cases ht⟩
      rw [exec_nil, hempty]
      rfl
  | append_singleton events e ih =>
      rw [exec_append, exec_cons, exec_nil]
      cases e with
      | addTerm p term => exact ih.addTerm p term
      | publish p => exact ih.publish p
      | deliver r p data => exact ih.deliver hsize hhash r p data

/-- The filter that is stored for a peer contains every filter that came from
it. -/
theorem Tracks.within_stored (h : Tracks config events peers) {r p : P}
    {data : Bytes} (hdata : data ∈ received config r p events)
    {f : BloomFilterCRDT}
    (hf : f.Shaped config.filterSizeInBits config.numHashFunctions)
    (hbits : f.bits = data) :
    ∃ g, (peers r).peerFilters.get? p = some g ∧ f.Within g := by
  have hstored := h.stored r p
  rw [if_neg (List.ne_nil_of_mem hdata)] at hstored
  obtain ⟨g, hg, hgBits⟩ := Option.map_eq_some_iff.1 hstored
  have hgShaped := (h.shaped r).peerFilters p g hg
  refine ⟨g, hg, hgShaped.1.trans hf.1.symm, hgShaped.2.trans hf.2.symm, ?_⟩
  intro i hi
  rw [hgBits, (getBit_joined config _ fun d hd => (mem_received.1 hd).2).2 i]
  exact ⟨data, hdata, by rwa [← hbits]⟩

/-- `p` published its filter when it had added the terms, and the message was
delivered to `r`. -/
def ReceivedPublication (start : BloomFilterGossip P)
    (events : List (GossipEvent P)) (r p : P) (terms : List JsString) : Prop :=
  ∃ before after, events = before ++ .publish p :: after ∧
    (∀ t ∈ terms, .addTerm p t ∈ before) ∧
    .deliver r p (exec step (fun _ => start) before p).publishFilter ∈ after

/-- A publication that was received is contained in what is stored. -/
theorem ReceivedPublication.stored {start : BloomFilterGossip P}
    (hstart : BloomFilterGossip.new config = .ok start) {r p : P}
    {terms : List JsString}
    (h : ReceivedPublication start events r p terms) :
    ∃ f, (exec step (fun _ => start) events r).peerFilters.get? p = some f ∧
      ∀ t ∈ terms, f.has t = true := by
  obtain ⟨before, after, rfl, hterms, hdeliver⟩ := h
  have hbefore := tracks_exec hstart before
  have hshaped := (hbefore.shaped p).localFilter
  have hreceived : (exec step (fun _ => start) before p).publishFilter ∈
      received config r p (before ++ .publish p :: after) := by
    rw [mem_received]
    refine ⟨by simp [hdeliver], ?_⟩
    rw [BloomFilterGossip.publishFilter, BloomFilterCRDT.serialize,
      BloomFilterCRDT.length_bits, hshaped.1]
  obtain ⟨f, hf, hwithin⟩ :=
    (tracks_exec hstart _).within_stored hreceived hshaped rfl
  exact ⟨f, hf, fun t ht => hwithin.has (hbefore.added p t (hterms t ht))⟩

/-- What the gossip guarantees at a receiver `r` about a peer `p`. -/
structure Converges (config : BloomFilterGossipConfig)
    (start : BloomFilterGossip P) (events : List (GossipEvent P)) (r p : P) :
    Prop where
  stored : ((exec step (fun _ => start) events r).peerFilters.get? p).map
      BloomFilterCRDT.bits =
    if received config r p events = [] then none
    else some (joined config (received config r p events))
  independent : ∀ events',
    (∀ data, data ∈ received config r p events ↔
      data ∈ received config r p events') →
    (exec step (fun _ => start) events r).peerFilters.get? p =
      (exec step (fun _ => start) events' r).peerFilters.get? p
  queried : ∀ terms, ReceivedPublication start events r p terms →
    p ∈ (exec step (fun _ => start) events r).queryPeers terms
  merged : ∃ m, (exec step (fun _ => start) events r).getMergedFilter = .ok m ∧
    ∀ t, (.addTerm r t ∈ events ∨
        (∃ q, ReceivedPublication start events r q [t]) ∨
        ∃ q data f, data ∈ received config r q events ∧
          BloomFilterCRDT.deserialize data config.filterSizeInBits
            config.numHashFunctions = .ok f ∧ f.has t = true) →
      m.has t = true

/-- What is stored depends on the set of messages only. -/
theorem stored_congr {start : BloomFilterGossip P}
    (hstart : BloomFilterGossip.new config = .ok start)
    {events events' : List (GossipEvent P)} {r p : P}
    (hsame : ∀ data, data ∈ received config r p events ↔
      data ∈ received config r p events') :
    (exec step (fun _ => start) events r).peerFilters.get? p =
      (exec step (fun _ => start) events' r).peerFilters.get? p := by
  have h := tracks_exec hstart events
  have h' := tracks_exec hstart events'
  have hnil : received config r p events = [] ↔
      received config r p events' = [] := by
    rw [List.eq_nil_iff_forall_not_mem, List.eq_nil_iff_forall_not_mem]
    simp only [hsame]
  have hbits := h.stored r p
  rw [joined_congr (fun d hd => (mem_received.1 hd).2) hsame] at hbits
  simp only [hnil] at hbits
  rw [← h'.stored r p] at hbits
  rcases hget : (exec step (fun _ => start) events r).peerFilters.get? p with
    _ | f
  · rw [hget, Option.map_none, eq_comm, Option.map_eq_none_iff] at hbits
    exact hbits.symm
  · rw [hget, Option.map_some, eq_comm, Option.map_eq_some_iff] at hbits
    obtain ⟨f', hf', hff'⟩ := hbits
    have hshaped := (h.shaped r).peerFilters p f hget
    have hshaped' := (h'.shaped r).peerFilters p f' hf'
    rw [hf', BloomFilterCRDT.ext hff' (hshaped'.2.trans hshaped.2.symm)
      (hshaped'.1.trans hshaped.1.symm)]

/-- The gossip of Bloom filters converges without false negatives. -/
theorem gossip_converges (config : BloomFilterGossipConfig)
    (start : BloomFilterGossip P)
    (hstart : BloomFilterGossip.new config = .ok start)
    (events : List (GossipEvent P)) (r p : P) :
    Converges config start events r p := by
  have h := tracks_exec hstart events
  obtain ⟨hsize, hhash, -, -⟩ := BloomFilterGossip.new_ok hstart
  obtain ⟨m, hm, hlocal, hpeers⟩ :=
    (h.shaped r).getMergedFilter hsize hhash
  refine ⟨h.stored r p, fun events' => stored_congr hstart, ?_, m, hm, ?_⟩
  · intro terms hterms
    obtain ⟨f, hf, hhas⟩ := hterms.stored hstart
    exact BloomFilterGossip.mem_queryPeers hf hhas
  · rintro t (hadded | ⟨q, hq⟩ | ⟨q, data, f, hdata, hf, hhas⟩)
    · exact hlocal.has (h.added r t hadded)
    · obtain ⟨f, hf, hhas⟩ := hq.stored hstart
      exact (hpeers q f hf).has (hhas t (List.mem_singleton.2 rfl))
    · obtain ⟨f', hf', hshaped, hbits⟩ := BloomFilterCRDT.deserialize_ok hsize
        hhash (mem_received.1 hdata).2
      rw [hf] at hf'
      cases hf'
      obtain ⟨g, hg, hwithin⟩ := h.within_stored hdata hshaped hbits
      exact (hpeers q g hg).has (hwithin.has hhas)

/-- A filter of 13 bits with three hash functions. -/
def smallConfig : BloomFilterGossipConfig := ⟨13, 3⟩

/-- Two peers: the first adds a term and publishes, and the second receives the
message twice and a malformed one between. -/
theorem gossip_converges_small : ∃ start : BloomFilterGossip ℕ,
    Converges smallConfig start
      [.addTerm 0 (JsString.ofString "term"), .publish 0,
        .deliver 1 0 (start.addTerm (JsString.ofString "term")).publishFilter,
        .deliver 1 0 [1, 2, 3],
        .deliver 1 0 (start.addTerm (JsString.ofString "term")).publishFilter]
      1 0 :=
  ⟨_, gossip_converges smallConfig _ rfl _ 1 0⟩

end Convergence

end Collabswarm.Index
