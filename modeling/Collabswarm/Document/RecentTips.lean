import Collabswarm.Support.JsString
import Collabswarm.Support.RecentList
import Collabswarm.Document.LocalChanges

/-!
# Recent tips

`trackTipInList` and `selectCrossLinks` of `merkle-cross-links.ts` for tips of
any type with any caps.  The list of recent tips holds the CIDs that were
tracked last, and the cross-links are taken from its back.
-/

namespace Collabswarm.RecentTips

variable {Tip : Type} (cid : Tip → JsString)

/-- The loop of `trackTipInList` that evicts the oldest entries. -/
def evict (cap : ℤ) : List Tip → List Tip
  | [] => []
  | tip :: recentTips =>
      if cap < (tip :: recentTips).length then evict cap recentTips
      else tip :: recentTips

/-- `trackTipInList`. -/
def trackTipInList (recentTips : List Tip) (entry : Tip) (maxRecentTips : ℤ) :
    List Tip :=
  if cid entry = [] then recentTips
  else
    let cap := max 0 maxRecentTips
    if cap = 0 then []
    else
      let recentTips :=
        match recentTips.findIdx? fun tip => cid tip = cid entry with
        | some existingIdx => recentTips.eraseIdx existingIdx
        | none => recentTips
      evict cap (recentTips ++ [entry])

/-- The loop of `selectCrossLinks` over the tips from the newest on. -/
def selectLoop (primaryParentId : Option JsString) (newCid : JsString)
    (maxCrossLinks : ℤ) : List Tip → List JsString → List Tip → List Tip
  | out, _, [] => out
  | out, seen, tip :: rest =>
      if maxCrossLinks ≤ out.length then out
      else if some (cid tip) = primaryParentId then
        selectLoop primaryParentId newCid maxCrossLinks out seen rest
      else if cid tip = newCid then
        selectLoop primaryParentId newCid maxCrossLinks out seen rest
      else if cid tip ∈ seen then
        selectLoop primaryParentId newCid maxCrossLinks out seen rest
      else
        selectLoop primaryParentId newCid maxCrossLinks (out ++ [tip])
          (cid tip :: seen) rest

/-- `selectCrossLinks`. -/
def selectCrossLinks (recentTips : List Tip)
    (primaryParentId : Option JsString) (newCid : JsString)
    (maxCrossLinks : ℤ) : List Tip :=
  selectLoop cid primaryParentId newCid maxCrossLinks [] [] recentTips.reverse

/-- Track tips one after the other, from an empty list on. -/
def track (maxRecentTips : ℤ) (entries : List Tip) : List Tip :=
  entries.foldl (fun tips entry => trackTipInList cid tips entry maxRecentTips)
    []

/-! ## Tracking -/

theorem evict_eq (cap : ℕ) (tips : List Tip) :
    evict cap tips = tips.rtake cap := by
  induction tips with
  | nil => rw [List.rtake_nil, evict]
  | cons tip tips ih =>
      rw [evict]
      split
      · rename_i hlt
        have hle : cap ≤ tips.length := by
          rw [List.length_cons] at hlt
          omega
        exact ih.trans (RecentList.rtake_append_of_le (l := [tip]) hle).symm
      · rename_i hle
        rw [List.rtake, Nat.sub_eq_zero_of_le (by omega), List.drop_zero]

/-- Tracking moves the tip to the back and keeps as many tips as the cap
allows. -/
theorem trackTipInList_eq (recentTips : List Tip) {entry : Tip}
    (hcid : cid entry ≠ []) (maxRecentTips : ℤ) :
    trackTipInList cid recentTips entry maxRecentTips =
      (RecentList.touch cid recentTips entry).rtake maxRecentTips.toNat := by
  have herase : (match recentTips.findIdx? fun tip => cid tip = cid entry with
      | some existingIdx => recentTips.eraseIdx existingIdx
      | none => recentTips) =
        recentTips.eraseP fun tip => cid tip = cid entry := by
    rw [List.eraseP_eq_eraseIdx]
    cases recentTips.findIdx? fun tip => cid tip = cid entry <;> rfl
  rw [trackTipInList, if_neg hcid, herase, max_comm, ← Int.toNat_eq_max]
  dsimp only
  split
  · rename_i hzero
    rw [Int.natCast_eq_zero.1 hzero, List.rtake_zero]
  · exact evict_eq _ _

/-- A tip with an empty CID is not tracked. -/
theorem trackTipInList_of_empty (recentTips : List Tip) {entry : Tip}
    (hcid : cid entry = []) (maxRecentTips : ℤ) :
    trackTipInList cid recentTips entry maxRecentTips = recentTips := by
  rw [trackTipInList, if_pos hcid]

/-- The recent tips are the last of those whose CIDs are not tracked again. -/
theorem track_eq (maxRecentTips : ℤ) (entries : List Tip) :
    track cid maxRecentTips entries =
      (RecentList.lastOccurrences cid
        (entries.filter fun entry => cid entry ≠ [])).rtake
          maxRecentTips.toNat := by
  rw [← RecentList.foldl_touch, track, List.foldl_filter]
  congr 1
  funext tips entry
  by_cases hcid : cid entry = []
  · rw [trackTipInList_of_empty cid tips hcid, if_neg (by simpa using hcid)]
  · rw [trackTipInList_eq cid tips hcid, if_pos (by simpa using hcid)]

/-- The CIDs of the recent tips: of each CID, the last place where it was
tracked counts. -/
theorem map_track (maxRecentTips : ℤ) (entries : List Tip) :
    (track cid maxRecentTips entries).map cid =
      (((entries.map cid).filter (· ≠ [])).dedup).rtake
        maxRecentTips.toNat := by
  have hfilter : ((entries.filter fun entry => cid entry ≠ []).map cid) =
      (entries.map cid).filter (· ≠ []) := by
    rw [List.filter_map]
    rfl
  rw [track_eq, ← hfilter, ← RecentList.map_lastOccurrences, List.rtake,
    List.rtake, List.map_drop, List.length_map]

/-! ## Selecting -/

/-- A tip that may be linked to. -/
def Linkable (primaryParentId : Option JsString) (newCid : JsString)
    (tip : Tip) : Prop :=
  some (cid tip) ≠ primaryParentId ∧ cid tip ≠ newCid

instance (primaryParentId : Option JsString) (newCid : JsString) :
    DecidablePred (Linkable cid primaryParentId newCid) := fun _ =>
  inferInstanceAs (Decidable (_ ∧ _))

theorem selectLoop_eq (primaryParentId : Option JsString) (newCid : JsString)
    (maxCrossLinks : ℤ) :
    ∀ (rest out : List Tip) (seen : List JsString), (rest.map cid).Nodup →
      (∀ tip ∈ rest, cid tip ∉ seen) →
      selectLoop cid primaryParentId newCid maxCrossLinks out seen rest =
        out ++ (rest.filter (Linkable cid primaryParentId newCid)).take
          (maxCrossLinks - out.length).toNat := by
  intro rest
  induction rest with
  | nil =>
      intro out seen _ _
      simp [selectLoop]
  | cons tip rest ih =>
      intro out seen hnodup hseen
      rw [List.map_cons, List.nodup_cons] at hnodup
      have hrest := fun other hother =>
        hseen other (List.mem_cons_of_mem tip hother)
      rw [selectLoop]
      by_cases hfull : maxCrossLinks ≤ out.length
      · rw [if_pos hfull, Int.toNat_of_nonpos (by omega), List.take_zero,
          List.append_nil]
      rw [if_neg hfull]
      by_cases hlinkable : Linkable cid primaryParentId newCid tip
      · rw [if_neg hlinkable.1, if_neg hlinkable.2,
          if_neg (hseen tip List.mem_cons_self),
          List.filter_cons_of_pos (by simpa using hlinkable)]
        have hcount : (maxCrossLinks - out.length).toNat =
            (maxCrossLinks - (out ++ [tip]).length).toNat + 1 := by
          rw [List.length_append, List.length_singleton]
          omega
        rw [hcount, List.take_succ_cons, ih _ _ hnodup.2, List.append_assoc,
          List.singleton_append]
        intro other hother hmem
        rcases List.mem_cons.1 hmem with hsame | hmem
        · exact hnodup.1 (hsame ▸ List.mem_map_of_mem hother)
        · exact hrest other hother hmem
      · rw [List.filter_cons_of_neg (by simpa using hlinkable)]
        have hskip := ih out seen hnodup.2 hrest
        by_cases hparent : some (cid tip) = primaryParentId
        · rw [if_pos hparent, hskip]
        · have hnew : cid tip = newCid := by
            by_contra hne
            exact hlinkable ⟨hparent, hne⟩
          rw [if_neg hparent, if_pos hnew, hskip]

/-- Among tips with different CIDs, the newest that may be linked to are
selected. -/
theorem selectCrossLinks_eq {recentTips : List Tip}
    (hnodup : (recentTips.map cid).Nodup) (primaryParentId : Option JsString)
    (newCid : JsString) (maxCrossLinks : ℤ) :
    selectCrossLinks cid recentTips primaryParentId newCid maxCrossLinks =
      (recentTips.reverse.filter
        (Linkable cid primaryParentId newCid)).take maxCrossLinks.toNat := by
  rw [selectCrossLinks, selectLoop_eq]
  · rw [List.nil_append, List.length_nil, Nat.cast_zero, sub_zero]
  · rw [List.map_reverse, List.nodup_reverse]
    exact hnodup
  · exact fun tip _ => List.not_mem_nil

/-! ## The tips of a document -/

section Document

open Document (RecentTip)

variable {C : Type} [DecidableEq C] {text : C → JsString}

/-- A document tracks tips whose CIDs are texts that are not empty. -/
theorem trackTipInList_document (hinj : Function.Injective text)
    (hne : ∀ c, text c ≠ []) (recentTips : List (RecentTip C))
    (entry : RecentTip C) (maxRecentTips : ℕ) :
    trackTipInList (fun tip => text tip.1) recentTips entry maxRecentTips =
      Document.trackTipInList recentTips entry maxRecentTips := by
  rw [trackTipInList_eq (fun tip => text tip.1) recentTips (hne entry.1),
    Int.toNat_natCast, RecentList.touch, Document.trackTipInList, List.rtake]
  simp only [hinj.eq_iff]

theorem selectLoop_document (hinj : Function.Injective text)
    (primaryParentId newCid : C) (maxCrossLinks : ℕ) :
    ∀ (rest out : List (RecentTip C)) (seen : List JsString),
      (∀ c, text c ∈ seen ↔ c ∈ out.map Prod.fst) →
      selectLoop (fun tip => text tip.1) (some (text primaryParentId))
          (text newCid) maxCrossLinks out seen rest =
        Document.selectLoop primaryParentId newCid maxCrossLinks out rest := by
  intro rest
  induction rest with
  | nil =>
      intro out seen _
      rfl
  | cons tip rest ih =>
      intro out seen hseen
      rw [selectLoop, Document.selectLoop]
      simp only [Option.some.injEq, hinj.eq_iff, hseen, Nat.cast_le, ih _ _ hseen]
      have hpush : ∀ c, text c ∈ text tip.1 :: seen ↔
          c ∈ (out ++ [tip]).map Prod.fst := by
        intro c
        rw [List.mem_cons, hinj.eq_iff, hseen, List.map_append, List.mem_append,
          List.map_singleton, List.mem_singleton, or_comm]
      rw [ih _ _ hpush]

theorem selectCrossLinks_document (hinj : Function.Injective text)
    (recentTips : List (RecentTip C)) (primaryParentId newCid : C)
    (maxCrossLinks : ℕ) :
    selectCrossLinks (fun tip => text tip.1) recentTips
        (some (text primaryParentId)) (text newCid) maxCrossLinks =
      Document.selectCrossLinks recentTips primaryParentId newCid
        maxCrossLinks :=
  selectLoop_document hinj _ _ _ _ _ _ (by simp)

end Document

/-! ## Sequences of calls -/

/-- After any sequence of calls the list has the CIDs that were tracked last,
without duplicates, and the cross-links are its newest linkable tips. -/
theorem recentTips_last_distinct (cap : ℤ) (entries : List Tip)
    (primaryParentId : Option JsString) (newCid : JsString)
    (maxCrossLinks : ℤ) :
    let tips := track cid cap entries
    let cids := ((entries.map cid).filter (· ≠ [])).dedup
    tips.map cid = cids.rtake cap.toNat ∧
      tips.length = min cap.toNat cids.length ∧ (tips.map cid).Nodup ∧
      selectCrossLinks cid tips primaryParentId newCid maxCrossLinks =
        (tips.reverse.filter fun tip =>
          some (cid tip) ≠ primaryParentId ∧ cid tip ≠ newCid).take
            maxCrossLinks.toNat := by
  intro tips cids
  have hcids : tips.map cid = cids.rtake cap.toNat := map_track cid cap entries
  have hnodup : (tips.map cid).Nodup := by
    rw [hcids]
    exact (List.nodup_dedup _).sublist (List.drop_sublist _ _)
  refine ⟨hcids, ?_, hnodup, selectCrossLinks_eq cid hnodup _ _ _⟩
  have hlength := congrArg List.length hcids
  rw [List.length_map, List.rtake, List.length_drop] at hlength
  omega

end Collabswarm.RecentTips
