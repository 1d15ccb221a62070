import Collabswarm.Acl.AutomergeACL
import Collabswarm.Support.InsertionMap
import Collabswarm.Ucan.Capabilities

/-!
# Access control lists with capabilities

`UCANACL` keeps a map of granted capabilities and a set of revoked keys beside
a list of members that replicas merge.  Every operation of its own updates all
three, while `merge` updates the list of members only: a member that another
replica removed keeps its capabilities.

Operations follow one another.  The list of members is a parameter, and so is
the serialization of keys.
-/

namespace Collabswarm.Ucan

/-! ## The list of members -/

/-- The operations of a list of members that `UCANACL` uses. -/
structure BackingACL (B Ch K : Type) where
  add : B → K → B × Ch
  remove : B → K → B × Ch
  merge : B → Ch → B
  check : B → K → Bool
  users : B → List K

/-- The list names members as `serialize` does: adding and removing change the
membership of one key, and the users are members. -/
structure BackingACL.Lawful {B Ch K : Type} (acl : BackingACL B Ch K)
    (serialize : K → JsString) : Prop where
  check_add : ∀ b k k', acl.check (acl.add b k).1 k' =
    if serialize k' = serialize k then true else acl.check b k'
  check_remove : ∀ b k k', acl.check (acl.remove b k).1 k' =
    if serialize k' = serialize k then false else acl.check b k'
  check_users : ∀ b, ∀ k ∈ acl.users b, acl.check b k = true

/-! ## `UCANACL` -/

/-- `DocumentCapability`. -/
inductive DocumentCapability where
  | admin
  | write
  | read
  | history
  deriving DecidableEq

/-- The text of a capability. -/
def DocumentCapability.text : DocumentCapability → JsString
  | .admin => capDocAdmin
  | .write => capDocWrite
  | .read => capDocRead
  | .history => JsString.ofString "/doc/history"

/-- `UCANACLEntry`. -/
structure UCANACLEntry (U : Type) where
  publicKeyBase64 : JsString
  ucan : U
  capabilities : List JsString
  grantedBy : JsString
  epochId : Option Bytes
  revoked : Bool

/-- `UCANACL`. -/
structure UCANACL (B U : Type) where
  entries : InsertionMap JsString (UCANACLEntry U)
  revokedKeys : List JsString
  backing : B

namespace UCANACL

section Operations

variable {B Ch K U : Type} (acl : BackingACL B Ch K) (serialize : K → JsString)

/-- A list with no entries over a list of members. -/
def new (backing : B) : UCANACL B U := ⟨InsertionMap.empty, [], backing⟩

/-- `add`. -/
def add (s : UCANACL B U) (publicKey : K) : UCANACL B U × Ch :=
  let (backing, changes) := acl.add s.backing publicKey
  ({ s with backing }, changes)

/-- `remove`. -/
def remove (s : UCANACL B U) (publicKey : K) : UCANACL B U × Ch :=
  let keyBase64 := serialize publicKey
  let (backing, changes) := acl.remove s.backing publicKey
  ({ revokedKeys := keyBase64 :: s.revokedKeys
     entries := s.entries.erase keyBase64
     backing }, changes)

/-- `revoke`. -/
def revoke (s : UCANACL B U) (publicKey : K) : UCANACL B U × Ch :=
  remove acl serialize s publicKey

/-- `merge`. -/
def merge (s : UCANACL B U) (changes : Ch) : UCANACL B U :=
  { s with backing := acl.merge s.backing changes }

/-- `grant` with the token that `createUCAN` made; without one it threw. -/
def grant (s : UCANACL B U) (publicKey : K) (capability : DocumentCapability)
    (issuerPublicKeyBase64 : JsString) (epochId : Option Bytes)
    (created : Option U) : UCANACL B U × Option Ch :=
  match created with
  | none => (s, none)
  | some ucan =>
      let keyBase64 := serialize publicKey
      let (backing, changes) := acl.add s.backing publicKey
      ({ s with
          entries := s.entries.set keyBase64
            { publicKeyBase64 := keyBase64
              ucan
              capabilities := [capability.text]
              grantedBy := issuerPublicKeyBase64
              epochId
              revoked := false }
          backing }, some changes)

/-- `check`; no capability and the empty one are the same. -/
def check (s : UCANACL B U) (publicKey : K) (capability : Option JsString) :
    Bool :=
  match capability with
  | none => acl.check s.backing publicKey
  | some [] => acl.check s.backing publicKey
  | some (u :: us) =>
      let keyBase64 := serialize publicKey
      if keyBase64 ∈ s.revokedKeys then false
      else
        match s.entries.get? keyBase64 with
        | none => acl.check s.backing publicKey
        | some entry => entry.capabilities.any (capabilityImplies · (u :: us))

/-- `users`. -/
def users (s : UCANACL B U) (capability : Option JsString) : List K :=
  match capability with
  | none => acl.users s.backing
  | some [] => acl.users s.backing
  | some (u :: us) =>
      (acl.users s.backing).filter (check acl serialize s · (some (u :: us)))

end Operations

/-! ## Runs -/

/-- One operation. -/
inductive Op (Ch K U : Type) where
  | add (publicKey : K)
  | remove (publicKey : K)
  | revoke (publicKey : K)
  | grant (publicKey : K) (capability : DocumentCapability)
      (issuerPublicKeyBase64 : JsString) (epochId : Option Bytes)
      (created : Option U)
  | merge (changes : Ch)

section Runs

variable {B Ch K U : Type} (acl : BackingACL B Ch K) (serialize : K → JsString)

/-- The state after one operation. -/
def step (s : UCANACL B U) : Op Ch K U → UCANACL B U
  | .add publicKey => (add acl s publicKey).1
  | .remove publicKey => (remove acl serialize s publicKey).1
  | .revoke publicKey => (revoke acl serialize s publicKey).1
  | .grant publicKey capability issuer epochId created =>
      (grant acl serialize s publicKey capability issuer epochId created).1
  | .merge changes => merge acl s changes

/-- Only members pass a check, and the users with a capability are the members
that pass the check for it. -/
structure WithinMembership (s : UCANACL B U) : Prop where
  check : ∀ k c, check acl serialize s k c = true →
    acl.check s.backing k = true
  users : ∀ c, users acl serialize s c =
    (acl.users s.backing).filter (UCANACL.check acl serialize s · c)

/-- The key has an entry and is not revoked. -/
def HoldsEntry (s : UCANACL B U) (k : K) : Prop :=
  serialize k ∉ s.revokedKeys ∧ (s.entries.get? (serialize k)).isSome

/-- A block of changes that is merged removes nobody who holds an entry. -/
def KeepsHolders (s : UCANACL B U) : Op Ch K U → Prop
  | .merge changes => ∀ k, HoldsEntry serialize s k →
      acl.check s.backing k = true →
        acl.check (acl.merge s.backing changes) k = true
  | _ => True

/-- Every entry grants some capability, and its holder is a member. -/
structure Covered (s : UCANACL B U) : Prop where
  granted : ∀ key entry, s.entries.get? key = some entry →
    ∃ capability : DocumentCapability, capability.text ∈ entry.capabilities
  member : ∀ k, HoldsEntry serialize s k → acl.check s.backing k = true

end Runs

section Invariant

variable {B Ch K U : Type} {acl : BackingACL B Ch K} {serialize : K → JsString}
  {s : UCANACL B U}

theorem capability_ne_nil (capability : DocumentCapability) :
    capability.text ≠ [] := by
  cases capability <;> decide

/-- A check for a capability that a holder was granted passes. -/
theorem check_of_holdsEntry {k : K} (h : HoldsEntry serialize s k)
    {capability : DocumentCapability} {entry : UCANACLEntry U}
    (hentry : s.entries.get? (serialize k) = some entry)
    (hcapability : capability.text ∈ entry.capabilities) :
    check acl serialize s k (some capability.text) = true := by
  obtain ⟨u, us, hcons⟩ := List.exists_cons_of_ne_nil
    (capability_ne_nil capability)
  rw [hcons, check, if_neg h.1, hentry, ← hcons]
  exact List.any_eq_true.2
    ⟨_, hcapability, capabilityImplies_refl capability.text⟩

/-- Who passes a check is a member or holds an entry. -/
theorem member_or_holdsEntry {k : K} {c : Option JsString}
    (h : check acl serialize s k c = true) :
    acl.check s.backing k = true ∨ HoldsEntry serialize s k := by
  unfold check at h
  split at h
  · exact Or.inl h
  · exact Or.inl h
  · dsimp only at h
    split at h
    · cases h
    rename_i hrevoked
    split at h
    · exact Or.inl h
    · rename_i entry hentry
      exact Or.inr ⟨hrevoked, by rw [hentry]; rfl⟩

/-- Without a capability all users are returned, and all of them are
members. -/
theorem users_eq (hacl : acl.Lawful serialize) (c : Option JsString) :
    users acl serialize s c =
      (acl.users s.backing).filter (check acl serialize s · c) := by
  have hall : (acl.users s.backing).filter (acl.check s.backing ·) =
      acl.users s.backing :=
    List.filter_eq_self.2 (hacl.check_users s.backing)
  rcases c with _ | _ | ⟨u, us⟩
  · exact hall.symm
  · exact hall.symm
  · rfl

/-- Where every entry grants something, only members pass checks exactly where
all holders of entries are members. -/
theorem withinMembership_iff (hacl : acl.Lawful serialize)
    (hgranted : ∀ key entry, s.entries.get? key = some entry →
      ∃ capability : DocumentCapability,
        capability.text ∈ entry.capabilities) :
    WithinMembership acl serialize s ↔
      ∀ k, HoldsEntry serialize s k → acl.check s.backing k = true := by
  constructor
  · intro h k hk
    obtain ⟨entry, hentry⟩ := Option.isSome_iff_exists.1 hk.2
    obtain ⟨capability, hcapability⟩ := hgranted _ entry hentry
    exact h.check k _ (check_of_holdsEntry hk hentry hcapability)
  · intro h
    refine ⟨fun k c hc => ?_, users_eq hacl⟩
    exact (member_or_holdsEntry hc).elim id (h k)

/-- An operation leaves entries that grant something. -/
theorem granted_step
    (hgranted : ∀ key entry, s.entries.get? key = some entry →
      ∃ capability : DocumentCapability,
        capability.text ∈ entry.capabilities)
    (op : Op Ch K U) (key : JsString) (entry : UCANACLEntry U)
    (h : (step acl serialize s op).entries.get? key = some entry) :
    ∃ capability : DocumentCapability,
      capability.text ∈ entry.capabilities := by
  have hremove : ∀ publicKey, (remove acl serialize s publicKey).1.entries.get?
      key = some entry → s.entries.get? key = some entry := by
    intro publicKey h
    rw [remove, InsertionMap.get?_erase] at h
    split at h
    · cases h
    · exact h
  cases op with
  | add publicKey => exact hgranted key entry h
  | remove publicKey => exact hgranted key entry (hremove publicKey h)
  | revoke publicKey => exact hgranted key entry (hremove publicKey h)
  | merge changes => exact hgranted key entry h
  | grant publicKey capability issuer epochId created =>
      cases created with
      | none => exact hgranted key entry h
      | some ucan =>
          simp only [step, grant, InsertionMap.get?_set] at h
          split at h
          · cases h
            exact ⟨capability, List.mem_singleton.2 rfl⟩
          · exact hgranted key entry h

/-- Removing a key keeps the other holders in the list. -/
theorem member_remove (hacl : acl.Lawful serialize)
    (h : ∀ k, HoldsEntry serialize s k → acl.check s.backing k = true)
    (publicKey k : K)
    (hk : HoldsEntry serialize (remove acl serialize s publicKey).1 k) :
    acl.check (remove acl serialize s publicKey).1.backing k = true := by
  obtain ⟨hrevoked, hentry⟩ := hk
  rw [remove, List.mem_cons, not_or] at hrevoked
  rw [remove, InsertionMap.get?_erase, if_neg hrevoked.1] at hentry
  rw [remove, hacl.check_remove, if_neg hrevoked.1]
  exact h k ⟨hrevoked.2, hentry⟩

/-- Granting makes a member. -/
theorem member_grant (hacl : acl.Lawful serialize)
    (h : ∀ k, HoldsEntry serialize s k → acl.check s.backing k = true)
    (publicKey : K) (capability : DocumentCapability) (issuer : JsString)
    (epochId : Option Bytes) (created : Option U) (k : K)
    (hk : HoldsEntry serialize
      (grant acl serialize s publicKey capability issuer epochId created).1
      k) :
    acl.check (grant acl serialize s publicKey capability issuer epochId
      created).1.backing k = true := by
  rcases created with _ | ucan
  · exact h k hk
  obtain ⟨hrevoked, hentry⟩ := hk
  rw [grant, InsertionMap.get?_set] at hentry
  rw [grant, hacl.check_add]
  by_cases hkey : serialize k = serialize publicKey
  · rw [if_pos hkey]
  · rw [if_neg hkey] at hentry ⊢
    exact h k ⟨hrevoked, hentry⟩

/-- From a state in which all holders of entries are members, an operation
leads to one exactly where a merge keeps them. -/
theorem Covered.member_step_iff (hacl : acl.Lawful serialize)
    (h : Covered acl serialize s) (op : Op Ch K U) :
    (∀ k, HoldsEntry serialize (step acl serialize s op) k →
      acl.check (step acl serialize s op).backing k = true) ↔
      KeepsHolders acl serialize s op := by
  cases op with
  | add publicKey =>
      refine iff_of_true (fun k hk => ?_) trivial
      rw [step, add, hacl.check_add]
      split
      · rfl
      · exact h.member k hk
  | remove publicKey =>
      exact iff_of_true (member_remove hacl h.member publicKey) trivial
  | revoke publicKey =>
      exact iff_of_true (member_remove hacl h.member publicKey) trivial
  | grant publicKey capability issuer epochId created =>
      exact iff_of_true (member_grant hacl h.member publicKey capability issuer
        epochId created) trivial
  | merge changes =>
      exact ⟨fun hall k hk _ => hall k hk,
        fun hkeeps k hk => hkeeps k hk (h.member k hk)⟩

theorem covered_new (backing : B) :
    Covered acl serialize (new backing : UCANACL B U) where
  granted _ _ h := by cases h
  member _ h := by cases h.2

end Invariant

/-! ## A removal on another replica -/

/-- A list of members that records who is set, and applies changes in the
order of their arrival. -/
def recordedMembers : BackingACL (List JsString) (List (JsString × Bool))
    JsString where
  add b k := (k :: b, [(k, true)])
  remove b k := (b.filter (· ≠ k), [(k, false)])
  merge b changes := changes.foldl
    (fun b change => if change.2 then change.1 :: b else b.filter (· ≠ change.1)) b
  check b k := decide (k ∈ b)
  users b := b

theorem recordedMembers_lawful : recordedMembers.Lawful id where
  check_add b k k' := by
    by_cases h : k' = k
    · simp [recordedMembers, h]
    · simp [recordedMembers, h]
  check_remove b k k' := by
    by_cases h : k' = k
    · simp [recordedMembers, h]
    · simp [recordedMembers, h]
  check_users b k hk := by simpa [recordedMembers] using hk

/-- The keys that operations set. -/
def putKeys {A : Type} (ops : List (MapOp (OpId A) JsString)) :
    List JsString :=
  ops.filterMap fun op =>
    match op.action with
    | .put _ key => some key
    | _ => none

/-- An Automerge list of members; keys are given by their serialization. -/
def automergeMembers : BackingACL (AutomergeACL ℕ JsString)
    (List (AclChange ℕ JsString)) JsString where
  add := AutomergeACL.add
  remove := AutomergeACL.remove
  merge := AutomergeACL.merge
  check := AutomergeACL.check
  users s := (putKeys s.ops).dedup.filter s.check

/-- A user. -/
def exampleUser : JsString := JsString.ofString "user"

/-- The list of another replica. -/
def otherReplica : AutomergeACL ℕ JsString := AutomergeACL.new 2

/-- The other replica merges our list with the user and removes the user. -/
def remoteRemoval : List (AclChange ℕ JsString) :=
  let ours := (AutomergeACL.new 1).merge otherReplica.acl.log
  let granted := (ours.add exampleUser).1
  ((otherReplica.merge granted.acl.log).remove exampleUser).2

end UCANACL

end Collabswarm.Ucan
