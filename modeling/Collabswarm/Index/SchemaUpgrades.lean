import Mathlib.Tactic
import Collabswarm.Support.InsertionSet
import Collabswarm.Support.JsString
import Collabswarm.Support.Lists
import Collabswarm.Support.Transition

/-!
# Schema upgrades of the index database

`initialize` probes the version and the schema of the database, closes it, and
opens it again: at the next version, with an upgrade that creates what is
missing, or at the same version.  Between the probe and the open other calls, of
the same storage or of another tab, may have upgraded the database.  If they
raised it by more than one version, the open is rejected and tried again; if
they raised it by exactly one, the open finds the version it asks for, succeeds,
and upgrades nothing.
-/

namespace Collabswarm.Index

/-- What an attempt of `initialize` read of the database. -/
structure SchemaProbe where
  currentVersion : ℕ
  storeAlreadyExists : Bool
  probedIndexNames : List JsString
deriving DecidableEq

/-- Where a call of `initialize` stands. -/
inductive InitializePhase where
  | probing
  | opening (probe : SchemaProbe)
  | finished
  | failed
deriving DecidableEq

/-- A call of `initialize`, by the storage it is made on. -/
structure InitializeCall (ι : Type) where
  storage : ι
  indexName : JsString
  fields : List JsString
  attempt : ℕ
  phase : InitializePhase

/-- The fields of an `IDBIndexStorage`; a connection is known by a number. -/
structure IDBIndexStorage where
  db : Option ℕ
  initializedStores : InsertionSet JsString
  indexedFields : JsString → Option (List JsString)

/-- A database with the names of the indexes of each store, its open
connections and the number of connections so far, the storages that use it, and
their calls in the order in which they were made.  A database that does not
exist has version 0. -/
structure IndexDatabase (ι : Type) where
  version : ℕ
  stores : JsString → Option (List JsString)
  connections : List ℕ
  opened : ℕ
  storages : ι → IDBIndexStorage
  calls : List (InitializeCall ι)

/-- A call is made, its probe or its second open completes, one of its requests
fails, or a storage is closed. -/
inductive DatabaseEvent (ι : Type) where
  | initializing (i : ι) (indexName : JsString) (fields : List JsString)
  | probed (call : ℕ)
  | reopened (call : ℕ)
  | rejected (call : ℕ)
  | close (i : ι)

/-- `MAX_OPEN_ATTEMPTS`. -/
def maxOpenAttempts : ℕ := 4

namespace InitializeCall

variable {ι : Type}

/-- `missingIndexFields`. -/
def missingIndexFields (call : InitializeCall ι) (probe : SchemaProbe) :
    List JsString :=
  if probe.storeAlreadyExists then
    call.fields.filter (· ∉ probe.probedIndexNames)
  else call.fields

/-- `needsUpgrade`. -/
def needsUpgrade (call : InitializeCall ι) (probe : SchemaProbe) : Bool :=
  !probe.storeAlreadyExists || !(call.missingIndexFields probe).isEmpty

/-- The version that the second open asks for. -/
def newVersion (call : InitializeCall ι) (probe : SchemaProbe) : ℕ :=
  if call.needsUpgrade probe then probe.currentVersion + 1
  else probe.currentVersion

/-- The callback `upgrade`. -/
def upgrade (call : InitializeCall ι) (probe : SchemaProbe)
    (stores : JsString → Option (List JsString)) :
    JsString → Option (List JsString) :=
  Function.update stores call.indexName
    (some ((call.missingIndexFields probe).foldl
      (fun names path => if path ∈ names then names else names ++ [path])
      ((stores call.indexName).getD [])))

/-- `fieldSet`. -/
def fieldSet (call : InitializeCall ι) (probe : SchemaProbe) : List JsString :=
  probe.probedIndexNames ++ call.fields

end InitializeCall

namespace IndexDatabase

variable {ι : Type}

/-- No database yet. -/
def start : IndexDatabase ι where
  version := 0
  stores _ := none
  connections := []
  opened := 0
  storages _ := ⟨none, InsertionSet.empty, fun _ => none⟩
  calls := []

/-- A call goes on. -/
def setCall (s : IndexDatabase ι) (k : ℕ) (call : InitializeCall ι) :
    IndexDatabase ι :=
  { s with calls := s.calls.set k call }

/-- The first part of an attempt. -/
def probe (s : IndexDatabase ι) (k : ℕ) (call : InitializeCall ι) :
    IndexDatabase ι :=
  let version := max s.version 1
  let probe : SchemaProbe :=
    { currentVersion := version
      storeAlreadyExists := (s.stores call.indexName).isSome
      probedIndexNames := (s.stores call.indexName).getD [] }
  { s.setCall k { call with phase := .opening probe } with
    version := version }

/-- A rejected open is tried again after a `VersionError`, unless it was the
last attempt. -/
def retry (s : IndexDatabase ι) (k : ℕ) (call : InitializeCall ι) :
    IndexDatabase ι :=
  if call.attempt < maxOpenAttempts - 1 then
    s.setCall k { call with attempt := call.attempt + 1, phase := .probing }
  else s.setCall k { call with phase := .failed }

variable [DecidableEq ι]

/-- Close the connection of a storage. -/
def closeConnection (s : IndexDatabase ι) (i : ι) : IndexDatabase ι :=
  match (s.storages i).db with
  | some connection =>
      { s with
        connections := s.connections.erase connection
        storages := Function.update s.storages i
          { s.storages i with db := none } }
  | none => s

/-- `initialize` up to its first await. -/
def initializeIndex (s : IndexDatabase ι) (i : ι) (indexName : JsString)
    (fields : List JsString) : IndexDatabase ι :=
  let storage := s.storages i
  if indexName ∈ storage.initializedStores.toList ∧ storage.db.isSome ∧
      ((storage.indexedFields indexName).any fun cached =>
        fields.all (· ∈ cached)) then s
  else
    { s.closeConnection i with
      calls := s.calls ++ [⟨i, indexName, fields, 0, .probing⟩] }

/-- The end of `initialize` behind an open that succeeded. -/
def finish (s : IndexDatabase ι) (k : ℕ) (call : InitializeCall ι)
    (probe : SchemaProbe) : IndexDatabase ι :=
  let storage := s.storages call.storage
  { s.setCall k { call with phase := .finished } with
    connections := s.connections ++ [s.opened]
    opened := s.opened + 1
    storages := Function.update s.storages call.storage
      { db := some s.opened
        initializedStores := storage.initializedStores.add call.indexName
        indexedFields := Function.update storage.indexedFields call.indexName
          (some (call.fieldSet probe)) } }

/-- The second open of an attempt: a version below that of the database is
rejected, the same version is opened as it is, and an upgrade waits until there
is no connection. -/
def reopen (s : IndexDatabase ι) (k : ℕ) (call : InitializeCall ι)
    (probe : SchemaProbe) : IndexDatabase ι :=
  if call.newVersion probe < s.version then s.retry k call
  else if call.newVersion probe = s.version then s.finish k call probe
  else if s.connections = [] then
    finish
      { s with
        version := call.newVersion probe
        stores :=
          if call.needsUpgrade probe then call.upgrade probe s.stores
          else s.stores }
      k call probe
  else s

/-- One event. -/
def step (s : IndexDatabase ι) : DatabaseEvent ι → IndexDatabase ι
  | .initializing i indexName fields => s.initializeIndex i indexName fields
  | .probed k =>
      match s.calls[k]? with
      | some call => if call.phase = .probing then s.probe k call else s
      | none => s
  | .reopened k =>
      match s.calls[k]? with
      | some call =>
          match call.phase with
          | .opening probe => s.reopen k call probe
          | _ => s
      | none => s
  | .rejected k =>
      match s.calls[k]? with
      | some call => s.setCall k { call with phase := .failed }
      | none => s
  | .close i => s.closeConnection i

/-- There is a store with indexes for these fields. -/
def Indexed (stores : JsString → Option (List JsString)) (indexName : JsString)
    (fields : List JsString) : Prop :=
  ∃ names, stores indexName = some names ∧ ∀ path ∈ fields, path ∈ names

/-- Every store that a storage takes to be initialized exists and has an index
for every field that the storage takes to be indexed. -/
def Sound (s : IndexDatabase ι) : Prop :=
  ∀ i, ∀ indexName ∈ (s.storages i).initializedStores.toList,
    Indexed s.stores indexName
      (((s.storages i).indexedFields indexName).getD [])

/-- An open that needs an upgrade and finds that exactly one version was added
since its probe also finds what it was to create. -/
def Unraced (s : IndexDatabase ι) : DatabaseEvent ι → Prop
  | .reopened k => ∀ call probe, s.calls[k]? = some call →
      call.phase = .opening probe → call.needsUpgrade probe →
        s.version = probe.currentVersion + 1 →
          Indexed s.stores call.indexName (call.missingIndexFields probe)
  | _ => True

/-- What was probed is still there. -/
def Probed (s : IndexDatabase ι) : Prop :=
  ∀ call ∈ s.calls, ∀ probe, call.phase = .opening probe →
    probe.storeAlreadyExists = true →
      Indexed s.stores call.indexName probe.probedIndexNames

variable {s : IndexDatabase ι} {stores : JsString → Option (List JsString)}

/-! ## Stores and indexes are never removed -/

omit [DecidableEq ι] in
theorem mem_foldl_createIndex {path : JsString} (missing : List JsString) :
    ∀ names : List JsString,
      path ∈ missing.foldl
          (fun names path => if path ∈ names then names else names ++ [path])
          names ↔ path ∈ names ∨ path ∈ missing := by
  induction missing with
  | nil => simp
  | cons first missing ih =>
      intro names
      rw [List.foldl_cons, ih, List.mem_cons, ← or_assoc]
      refine or_congr_left ?_
      by_cases hfirst : first ∈ names
      · rw [if_pos hfirst]
        refine (or_iff_left_of_imp ?_).symm
        rintro rfl
        exact hfirst
      · rw [if_neg hfirst, List.mem_append, List.mem_singleton]

omit [DecidableEq ι] in
theorem Indexed.mono {indexName : JsString} {fields fields' : List JsString}
    (h : Indexed stores indexName fields)
    (hfields : ∀ path ∈ fields', path ∈ fields) :
    Indexed stores indexName fields' := by
  obtain ⟨names, hnames, hmem⟩ := h
  exact ⟨names, hnames, fun path hpath => hmem path (hfields path hpath)⟩

omit [DecidableEq ι] in
theorem Indexed.append {indexName : JsString} {fields fields' : List JsString}
    (h : Indexed stores indexName fields)
    (h' : Indexed stores indexName fields') :
    Indexed stores indexName (fields ++ fields') := by
  obtain ⟨names, hnames, hmem⟩ := h
  obtain ⟨names', hnames', hmem'⟩ := h'
  obtain rfl := Option.some_injective _ (hnames.symm.trans hnames')
  refine ⟨names, hnames, fun path hpath => ?_⟩
  rcases List.mem_append.1 hpath with hpath | hpath
  · exact hmem path hpath
  · exact hmem' path hpath

omit [DecidableEq ι] in
theorem Indexed.upgrade {indexName : JsString} {fields : List JsString}
    (h : Indexed stores indexName fields) (call : InitializeCall ι)
    (probe : SchemaProbe) :
    Indexed (call.upgrade probe stores) indexName fields := by
  obtain ⟨names, hnames, hmem⟩ := h
  unfold InitializeCall.upgrade
  by_cases hname : indexName = call.indexName
  · subst hname
    refine ⟨_, Function.update_self _ _ _, fun path hpath => ?_⟩
    rw [mem_foldl_createIndex, hnames]
    exact Or.inl (hmem path hpath)
  · exact ⟨names, by rw [Function.update_of_ne hname, hnames], hmem⟩

omit [DecidableEq ι] in
/-- An upgrade creates what is missing. -/
theorem indexed_upgrade (call : InitializeCall ι) (probe : SchemaProbe) :
    Indexed (call.upgrade probe stores) call.indexName
      (call.missingIndexFields probe) := by
  refine ⟨_, Function.update_self _ _ _, fun path hpath => ?_⟩
  rw [mem_foldl_createIndex]
  exact Or.inr hpath

/-! ## The fields that are recorded -/

omit [DecidableEq ι] in
theorem mem_missing_or_probed (call : InitializeCall ι) (probe : SchemaProbe)
    {path : JsString} (hpath : path ∈ call.fields) :
    path ∈ call.missingIndexFields probe ∨
      probe.storeAlreadyExists = true ∧ path ∈ probe.probedIndexNames := by
  unfold InitializeCall.missingIndexFields
  by_cases hexists : probe.storeAlreadyExists = true
  · rw [if_pos hexists, List.mem_filter]
    by_cases hprobed : path ∈ probe.probedIndexNames
    · exact Or.inr ⟨hexists, hprobed⟩
    · exact Or.inl ⟨hpath, by simpa using hprobed⟩
  · rw [if_neg hexists]
    exact Or.inl hpath

/-- A probe reads no index of a store that does not exist. -/
def Consistent (probe : SchemaProbe) : Prop :=
  probe.storeAlreadyExists = false → probe.probedIndexNames = []

omit [DecidableEq ι] in
/-- If what was probed is there, what is recorded is indexed exactly if what
was missing is. -/
theorem indexed_fieldSet_iff {call : InitializeCall ι} {probe : SchemaProbe}
    (hconsistent : Consistent probe)
    (hprobed : probe.storeAlreadyExists = true →
      Indexed stores call.indexName probe.probedIndexNames) :
    Indexed stores call.indexName (call.fieldSet probe) ↔
      Indexed stores call.indexName (call.missingIndexFields probe) := by
  constructor
  · intro h
    refine h.mono fun path hpath => List.mem_append_right _ ?_
    unfold InitializeCall.missingIndexFields at hpath
    split at hpath
    · exact (List.mem_filter.1 hpath).1
    · exact hpath
  · intro hmissing
    by_cases hexists : probe.storeAlreadyExists = true
    · refine ((hprobed hexists).append hmissing).mono fun path hpath => ?_
      rcases List.mem_append.1 hpath with hpath | hpath
      · exact List.mem_append_left _ hpath
      · rcases mem_missing_or_probed call probe hpath with hmem | ⟨-, hmem⟩
        · exact List.mem_append_right _ hmem
        · exact List.mem_append_left _ hmem
    · have hnone := hconsistent (Bool.eq_false_iff.2 hexists)
      refine hmissing.mono fun path hpath => ?_
      unfold InitializeCall.fieldSet at hpath
      rw [hnone, List.nil_append] at hpath
      exact (mem_missing_or_probed call probe hpath).resolve_right
        fun hboth => hexists hboth.1

omit [DecidableEq ι] in
/-- Without a need for an upgrade nothing is missing. -/
theorem indexed_missing_of_not_needsUpgrade {call : InitializeCall ι}
    {probe : SchemaProbe} (hneeds : call.needsUpgrade probe = false)
    (hprobed : probe.storeAlreadyExists = true →
      Indexed stores call.indexName probe.probedIndexNames) :
    Indexed stores call.indexName (call.missingIndexFields probe) := by
  unfold InitializeCall.needsUpgrade at hneeds
  rw [Bool.or_eq_false_iff, Bool.not_eq_false', Bool.not_eq_false',
    List.isEmpty_iff] at hneeds
  rw [hneeds.2]
  exact (hprobed hneeds.1).mono fun path hpath => absurd hpath (by simp)

/-! ## The invariant -/

/-- What was probed is consistent, and still there. -/
structure Inv (s : IndexDatabase ι) : Prop where
  sound : s.Sound
  probed : s.Probed
  consistent : ∀ call ∈ s.calls, ∀ probe, call.phase = .opening probe →
    Consistent probe

omit [DecidableEq ι] in
theorem inv_start : (start : IndexDatabase ι).Inv where
  sound i indexName h := by cases h
  probed call h := by cases h
  consistent call h := by cases h

omit [DecidableEq ι] in
/-- A call that is not about to open may take any place. -/
theorem Inv.setCall (h : s.Inv) (k : ℕ) {call : InitializeCall ι}
    (hphase : ∀ probe, call.phase ≠ .opening probe) : (s.setCall k call).Inv where
  sound := h.sound
  probed call' hcall' probe hopening := by
    rcases List.mem_or_eq_of_mem_set hcall' with hold | rfl
    · exact h.probed call' hold probe hopening
    · exact absurd hopening (hphase probe)
  consistent call' hcall' probe hopening := by
    rcases List.mem_or_eq_of_mem_set hcall' with hold | rfl
    · exact h.consistent call' hold probe hopening
    · exact absurd hopening (hphase probe)

omit [DecidableEq ι] in
theorem Inv.setFinished (h : s.Inv) (k : ℕ) (call : InitializeCall ι) :
    (s.setCall k { call with phase := .finished }).Inv :=
  h.setCall k fun probe hopening => by cases hopening

omit [DecidableEq ι] in
theorem Inv.retry (h : s.Inv) (k : ℕ) (call : InitializeCall ι) :
    (s.retry k call).Inv := by
  unfold IndexDatabase.retry
  split
  · exact h.setCall k fun probe hopening => by cases hopening
  · exact h.setCall k fun probe hopening => by cases hopening

omit [DecidableEq ι] in
theorem Inv.probe (h : s.Inv) (k : ℕ) (call : InitializeCall ι) :
    (s.probe k call).Inv where
  sound := h.sound
  probed call' hcall' probe hopening hexists := by
    rcases List.mem_or_eq_of_mem_set hcall' with hold | rfl
    · exact h.probed call' hold probe hopening hexists
    · cases hopening
      obtain ⟨names, hnames⟩ := Option.isSome_iff_exists.1 hexists
      refine ⟨names, hnames, fun path hpath => ?_⟩
      rwa [hnames] at hpath
  consistent call' hcall' probe hopening := by
    rcases List.mem_or_eq_of_mem_set hcall' with hold | rfl
    · exact h.consistent call' hold probe hopening
    · cases hopening
      intro hnone
      have hnames : s.stores call.indexName = none := by simpa using hnone
      change (s.stores call.indexName).getD [] = []
      rw [hnames]
      rfl

/-- A closed storage still has what it has initialized. -/
theorem storages_closeConnection (s : IndexDatabase ι) (i j : ι) :
    ((s.closeConnection i).storages j).initializedStores =
        (s.storages j).initializedStores ∧
      ((s.closeConnection i).storages j).indexedFields =
        (s.storages j).indexedFields := by
  unfold closeConnection
  split
  · by_cases hj : j = i
    · subst hj
      simp
    · simp [Function.update_of_ne hj]
  · exact ⟨rfl, rfl⟩

theorem calls_closeConnection (s : IndexDatabase ι) (i : ι) :
    (s.closeConnection i).calls = s.calls ∧
      (s.closeConnection i).stores = s.stores := by
  unfold closeConnection
  split <;> exact ⟨rfl, rfl⟩

theorem Inv.closeConnection (h : s.Inv) (i : ι) : (s.closeConnection i).Inv := by
  obtain ⟨hcalls, hstores⟩ := calls_closeConnection s i
  refine ⟨?_, ?_, ?_⟩
  · intro j indexName hmem
    obtain ⟨hinitialized, hindexed⟩ := storages_closeConnection s i j
    rw [hinitialized] at hmem
    rw [hindexed, hstores]
    exact h.sound j indexName hmem
  · intro call hcall
    rw [hcalls] at hcall
    rw [hstores]
    exact h.probed call hcall
  · intro call hcall
    rw [hcalls] at hcall
    exact h.consistent call hcall

theorem Inv.initializeIndex (h : s.Inv) (i : ι) (indexName : JsString)
    (fields : List JsString) : (s.initializeIndex i indexName fields).Inv := by
  unfold IndexDatabase.initializeIndex
  dsimp only
  split
  · exact h
  · have hclosed := h.closeConnection i
    obtain ⟨hcalls, -⟩ := calls_closeConnection s i
    refine ⟨hclosed.sound, ?_, ?_⟩
    · intro call hcall probe hopening
      rcases List.mem_append.1 hcall with hcall | hcall
      · exact hclosed.probed call (hcalls ▸ hcall) probe hopening
      · rw [List.mem_singleton.1 hcall] at hopening
        cases hopening
    · intro call hcall probe hopening
      rcases List.mem_append.1 hcall with hcall | hcall
      · exact h.consistent call hcall probe hopening
      · rw [List.mem_singleton.1 hcall] at hopening
        cases hopening

/-! ## Finishing a call -/

theorem storages_finish (s : IndexDatabase ι) (k : ℕ)
    (call : InitializeCall ι) (probe : SchemaProbe) :
    (s.finish k call probe).storages =
      Function.update s.storages call.storage
        { db := some s.opened
          initializedStores :=
            (s.storages call.storage).initializedStores.add call.indexName
          indexedFields :=
            Function.update (s.storages call.storage).indexedFields
              call.indexName (some (call.fieldSet probe)) } :=
  rfl

theorem stores_finish (s : IndexDatabase ι) (k : ℕ) (call : InitializeCall ι)
    (probe : SchemaProbe) : (s.finish k call probe).stores = s.stores :=
  rfl

/-- A call that finishes leaves the storages sound exactly if what it records
is indexed. -/
theorem Inv.sound_finish_iff (h : s.Inv) (k : ℕ) (call : InitializeCall ι)
    (probe : SchemaProbe) :
    (s.finish k call probe).Sound ↔
      Indexed s.stores call.indexName (call.fieldSet probe) := by
  constructor
  · intro hsound
    have hmem := hsound call.storage call.indexName
    rw [storages_finish, stores_finish, Function.update_self] at hmem
    dsimp only at hmem
    rw [Function.update_self] at hmem
    exact hmem (InsertionSet.mem_add.2 (Or.inr rfl))
  · intro hindexed i indexName hmem
    rw [storages_finish] at hmem ⊢
    rw [stores_finish]
    by_cases hi : i = call.storage
    · subst hi
      rw [Function.update_self] at hmem ⊢
      dsimp only at hmem ⊢
      by_cases hname : indexName = call.indexName
      · subst hname
        rw [Function.update_self]
        exact hindexed
      · rw [Function.update_of_ne hname]
        exact h.sound _ _
          ((InsertionSet.mem_add.1 hmem).resolve_right hname)
    · rw [Function.update_of_ne hi] at hmem ⊢
      exact h.sound i indexName hmem

theorem Inv.finish (h : s.Inv) {k : ℕ} {call : InitializeCall ι}
    {probe : SchemaProbe}
    (hindexed : Indexed s.stores call.indexName (call.fieldSet probe)) :
    (s.finish k call probe).Inv where
  sound := (h.sound_finish_iff k call probe).2 hindexed
  probed := (h.setFinished k call).probed
  consistent := (h.setFinished k call).consistent

omit [DecidableEq ι] in
theorem Inv.upgrade (h : s.Inv) (version : ℕ) (call : InitializeCall ι)
    (probe : SchemaProbe) :
    Inv { s with version, stores := call.upgrade probe s.stores } where
  sound i indexName hmem := (h.sound i indexName hmem).upgrade call probe
  probed call' hcall' probe' hopening hexists :=
    (h.probed call' hcall' probe' hopening hexists).upgrade call probe
  consistent := h.consistent

/-! ## Opening again -/

/-- If an open that finds exactly one new version also finds what it was to
create, it keeps the invariant. -/
theorem Inv.reopen (h : s.Inv) {k : ℕ} {call : InitializeCall ι}
    {probe : SchemaProbe} (hcall : call ∈ s.calls)
    (hphase : call.phase = .opening probe)
    (hunraced : call.needsUpgrade probe = true →
      s.version = probe.currentVersion + 1 →
        Indexed s.stores call.indexName (call.missingIndexFields probe)) :
    (s.reopen k call probe).Inv := by
  have hconsistent := h.consistent call hcall probe hphase
  have hprobed := h.probed call hcall probe hphase
  have hrecorded := indexed_fieldSet_iff hconsistent hprobed
  unfold IndexDatabase.reopen InitializeCall.newVersion
  by_cases hneeds : call.needsUpgrade probe = true
  · rw [if_pos hneeds, if_pos hneeds]
    split_ifs with hbehind hsame hfree
    · exact h.retry k call
    · exact h.finish (hrecorded.2 (hunraced hneeds hsame.symm))
    · have hupgraded := h.upgrade (probe.currentVersion + 1) call probe
      refine hupgraded.finish ((indexed_fieldSet_iff hconsistent
        fun hexists => (hprobed hexists).upgrade call probe).2 ?_)
      exact indexed_upgrade call probe
    · exact h
  · have hmissing := indexed_missing_of_not_needsUpgrade
      (Bool.eq_false_iff.2 hneeds) hprobed
    rw [if_neg hneeds, if_neg hneeds]
    split_ifs
    · exact h.retry k call
    · exact h.finish (hrecorded.2 hmissing)
    · exact Inv.finish (s := { s with version := probe.currentVersion })
        ⟨h.sound, h.probed, h.consistent⟩ (hrecorded.2 hmissing)
    · exact h

/-- An open that needs an upgrade and finds the version it asks for records
what it was to create. -/
theorem Inv.indexed_of_sound_reopen (h : s.Inv) {k : ℕ}
    {call : InitializeCall ι} {probe : SchemaProbe} (hcall : call ∈ s.calls)
    (hphase : call.phase = .opening probe)
    (hsound : (s.reopen k call probe).Sound)
    (hneeds : call.needsUpgrade probe = true)
    (hversion : s.version = probe.currentVersion + 1) :
    Indexed s.stores call.indexName (call.missingIndexFields probe) := by
  have hfinish : s.reopen k call probe = s.finish k call probe := by
    unfold IndexDatabase.reopen InitializeCall.newVersion
    rw [if_pos hneeds, hversion, if_neg (lt_irrefl _), if_pos rfl]
  rw [hfinish, h.sound_finish_iff] at hsound
  exact (indexed_fieldSet_iff (h.consistent call hcall probe hphase)
    (h.probed call hcall probe hphase)).1 hsound

theorem step_reopened (s : IndexDatabase ι) (k : ℕ) :
    s.step (.reopened k) = s ∨
      ∃ call probe, s.calls[k]? = some call ∧ call.phase = .opening probe ∧
        s.step (.reopened k) = s.reopen k call probe := by
  cases hcall : s.calls[k]? with
  | none => exact Or.inl (by simp only [step, hcall])
  | some call =>
      cases hphase : call.phase with
      | opening probe =>
          exact Or.inr ⟨call, probe, rfl, hphase,
            by simp only [step, hcall, hphase]⟩
      | probing => exact Or.inl (by simp only [step, hcall, hphase])
      | finished => exact Or.inl (by simp only [step, hcall, hphase])
      | failed => exact Or.inl (by simp only [step, hcall, hphase])

/-- An event that is not raced keeps the invariant. -/
theorem Inv.step (h : s.Inv) {e : DatabaseEvent ι} (hunraced : s.Unraced e) :
    (s.step e).Inv := by
  cases e with
  | initializing i indexName fields =>
      exact h.initializeIndex i indexName fields
  | close i => exact h.closeConnection i
  | reopened k =>
      rcases step_reopened s k with hsame | ⟨call, probe, hcall, hphase, hstep⟩
      · rwa [hsame]
      · rw [hstep]
        exact h.reopen (List.mem_of_getElem? hcall) hphase
          (hunraced call probe hcall hphase)
  | probed k =>
      simp only [IndexDatabase.step]
      split
      · split
        · exact h.probe k _
        · exact h
      · exact h
  | rejected k =>
      simp only [IndexDatabase.step]
      split
      · exact h.setCall k fun probe hopening => by cases hopening
      · exact h

theorem Inv.sound_step_iff (h : s.Inv) (e : DatabaseEvent ι) :
    (s.step e).Sound ↔ s.Unraced e := by
  refine ⟨fun hsound => ?_, fun hunraced => (h.step hunraced).sound⟩
  cases e with
  | reopened k =>
      intro call probe hcall hphase
      have hstep : s.step (.reopened k) = s.reopen k call probe := by
        simp only [IndexDatabase.step, hcall, hphase]
      rw [hstep] at hsound
      exact h.indexed_of_sound_reopen (List.mem_of_getElem? hcall) hphase
        hsound
  | initializing i indexName fields => trivial
  | close i => trivial
  | probed k => trivial
  | rejected k => trivial

/-- In every run of the calls of any number of storages and tabs, all
initialized stores exist and have the recorded indexes exactly if no open that
needs an upgrade is overtaken by exactly one version that lacks what it was to
create. -/
theorem sound_iff_unraced (events : List (DatabaseEvent ι)) :
    (∀ k, Sound (exec step start (events.take k))) ↔
      Guarded step Unraced (start : IndexDatabase ι) events :=
  forall_exec_take_iff_guarded (fun _ h => h.sound)
    (fun _ e h => Inv.sound_step_iff h e) (fun _ _ h hunraced => h.step hunraced)
    events start inv_start

/-- Two overlapping calls of one storage: the second store is not created, but
taken to be initialized. -/
example :
    let s := exec step (start : IndexDatabase Unit)
      [.initializing () [1] [], .initializing () [2] [], .probed 0, .probed 1,
        .reopened 0, .reopened 1]
    s.stores [1] = some [] ∧ s.stores [2] = none ∧
      [2] ∈ (s.storages ()).initializedStores.toList := by
  decide

end IndexDatabase

end Collabswarm.Index
