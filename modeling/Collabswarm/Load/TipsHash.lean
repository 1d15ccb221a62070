import Collabswarm.Support.InsertionSet
import Collabswarm.Support.JsString
import Collabswarm.Support.Lists

/-!
# The hash of a tip set

`tips-hash.ts`: the tips are sorted by their code units, joined by newlines and
encoded as UTF-8 before they are hashed.  Sorting forgets the order in which the
tips are given, and among tips without newlines nothing else is lost.
-/

namespace Collabswarm

open JsString

/-- The argument of `tipsHash`. -/
inductive Tips where
  | set (hashes : InsertionSet JsString)
  | array (hashes : List JsString)

/-- `Array.from`. -/
def Tips.toList : Tips → List JsString
  | .set hashes => hashes.toList
  | .array hashes => hashes

/-- `sort` without a comparison: by code units. -/
def sortStrings (strings : List JsString) : List JsString :=
  strings.mergeSort fun s t => decide (s ≤ t)

/-- The bytes that `tipsHash` hashes. -/
def canonicalTips (hashes : Tips) : Bytes :=
  textEncode ([0x0A].intercalate (sortStrings hashes.toList))

/-- `tipsHash`; `digest` is SHA-256. -/
def tipsHash (digest : Bytes → Bytes) (hashes : Tips) : Bytes :=
  digest (canonicalTips hashes)

/-- A string that is not empty and has neither newlines nor lone
surrogates. -/
structure IsTip (s : JsString) : Prop where
  ne_nil : s ≠ []
  newline_notMem : 0x0A ∉ s
  wellFormed : WellFormed s

theorem sortStrings_perm (strings : List JsString) :
    (sortStrings strings).Perm strings :=
  List.mergeSort_perm _ _

theorem pairwise_sortStrings (strings : List JsString) :
    (sortStrings strings).Pairwise fun s t => s ≤ t := by
  have hsorted : (sortStrings strings).Pairwise fun s t => decide (s ≤ t) := by
    apply List.pairwise_mergeSort
    · intro s t u hst htu
      exact decide_eq_true
        (List.le_trans (of_decide_eq_true hst) (of_decide_eq_true htu))
    · intro s t
      rw [Bool.or_eq_true, decide_eq_true_eq, decide_eq_true_eq]
      exact List.le_total s t
  exact hsorted.imp of_decide_eq_true

/-- Sorting decides whether two arrays have the same strings equally often. -/
theorem sortStrings_eq_iff {strings strings' : List JsString} :
    sortStrings strings = sortStrings strings' ↔ strings.Perm strings' := by
  constructor
  · intro h
    have hperm := sortStrings_perm strings
    rw [h] at hperm
    exact hperm.symm.trans (sortStrings_perm strings')
  · intro h
    refine List.Perm.eq_of_pairwise (fun s t _ _ => List.le_antisymm)
      (pairwise_sortStrings strings) (pairwise_sortStrings strings') ?_
    exact ((sortStrings_perm strings).trans h).trans
      (sortStrings_perm strings').symm

/-- Two lists of tips have the same canonical bytes exactly if they have the
same tips equally often. -/
theorem canonicalTips_eq_iff {hashes hashes' : Tips}
    (h : ∀ s ∈ hashes.toList, IsTip s) (h' : ∀ s ∈ hashes'.toList, IsTip s) :
    canonicalTips hashes = canonicalTips hashes' ↔
      hashes.toList.Perm hashes'.toList := by
  rw [← sortStrings_eq_iff]
  have hsorted : ∀ s ∈ sortStrings hashes.toList, IsTip s := fun s hs =>
    h s ((sortStrings_perm _).mem_iff.1 hs)
  have hsorted' : ∀ s ∈ sortStrings hashes'.toList, IsTip s := fun s hs =>
    h' s ((sortStrings_perm _).mem_iff.1 hs)
  constructor
  · intro hbytes
    have hjoin := textEncode_inj
      (wellFormed_intercalate rfl rfl fun s hs => (hsorted s hs).wellFormed)
      (wellFormed_intercalate rfl rfl fun s hs => (hsorted' s hs).wellFormed)
      hbytes
    exact intercalate_inj (fun s hs => (hsorted s hs).ne_nil)
      (fun s hs => (hsorted' s hs).ne_nil)
      (fun s hs => (hsorted s hs).newline_notMem)
      (fun s hs => (hsorted' s hs).newline_notMem) hjoin
  · intro heq
    rw [canonicalTips, canonicalTips, heq]

/-- Two sets of tips have the same canonical bytes exactly if they have the
same elements, and the hash of an array does not depend on its order. -/
theorem tipsHash_canonical {hashes hashes' : InsertionSet JsString}
    (h : ∀ s ∈ hashes.toList, IsTip s) (h' : ∀ s ∈ hashes'.toList, IsTip s) :
    (canonicalTips (.set hashes) = canonicalTips (.set hashes') ↔
      ∀ s, s ∈ hashes.toList ↔ s ∈ hashes'.toList) ∧
    ∀ (digest : Bytes → Bytes) (array array' : List JsString),
      array.Perm array' →
        tipsHash digest (.array array) = tipsHash digest (.array array') := by
  constructor
  · have hperm := @canonicalTips_eq_iff (.set hashes) (.set hashes') h h'
    exact hperm.trans (List.perm_ext_iff_of_nodup hashes.nodup hashes'.nodup)
  · intro digest array array' hperm
    rw [tipsHash, tipsHash, canonicalTips, canonicalTips, Tips.toList,
      Tips.toList, sortStrings_eq_iff.2 hperm]

/-- Two tips, one a prefix of the other, given in both orders. -/
theorem tipsHash_canonical_prefix :
    canonicalTips (.set ⟨[[0x61, 0x62], [0x61]], by decide⟩) =
      canonicalTips (.set ⟨[[0x61], [0x61, 0x62]], by decide⟩) := by
  have htip : ∀ s ∈ [[0x61, 0x62], [0x61]], IsTip s := by
    intro s hs
    rcases List.mem_pair.1 hs with rfl | rfl
    · exact ⟨by decide, by decide, by decide⟩
    · exact ⟨by decide, by decide, by decide⟩
  refine (@tipsHash_canonical ⟨[[0x61, 0x62], [0x61]], by decide⟩
    ⟨[[0x61], [0x61, 0x62]], by decide⟩ htip ?_).1.2 ?_
  · intro s hs
    exact htip s (List.mem_pair.2 (List.mem_pair.1 hs).symm)
  · intro s
    rw [List.mem_pair, List.mem_pair, or_comm]

end Collabswarm
