import Mathlib.Data.Rat.Defs
import Collabswarm.Index.BloomFilter
import Collabswarm.Support.Lists
import Collabswarm.Support.PopCount

/-!
# The fill ratio of a filter

`fillRatio` counts the bits of all bytes of a filter.  A filter whose size is
not a multiple of eight has further bits in its last byte; hash functions never
set them, but received bytes may have them set, and merging keeps them.
-/

namespace Collabswarm.Index

open BitString PopCount

namespace BloomFilterCRDT

/-- The loop of `fillRatio` over the bytes; the bits of each are counted by
clearing the lowest one. -/
def countBits (count : ℕ) : Bytes → ℕ
  | [] => count
  | byte :: bytes => countBits (count + bitCount byte.toNat) bytes

/-- `fillRatio`, before the quotient is rounded. -/
def fillRatio (f : BloomFilterCRDT) : ℚ :=
  countBits 0 f.bits / f.sizeInBits

/-- The number of bits that are set, among those that the filter has. -/
def setCount (f : BloomFilterCRDT) : ℕ :=
  (List.range f.sizeInBits).countP (getBit f.bits)

end BloomFilterCRDT

/-- How a filter came to be: by the constructor, from received bytes, by adding
a term or by merging. -/
inductive FilterHistory where
  | new (sizeInBits numHashFunctions : ℕ)
  | deserialize (data : Bytes) (sizeInBits numHashFunctions : ℕ)
  | add (filter : FilterHistory) (term : JsString)
  | merge (filter other : FilterHistory)

namespace FilterHistory

/-- The filter, unless a call throws. -/
def filter : FilterHistory → Except String BloomFilterCRDT
  | .new sizeInBits numHashFunctions =>
      BloomFilterCRDT.new sizeInBits numHashFunctions
  | .deserialize data sizeInBits numHashFunctions =>
      BloomFilterCRDT.deserialize data sizeInBits numHashFunctions
  | .add filter term => do return (← filter.filter).add term
  | .merge filter other => do (← filter.filter).merge (← other.filter)

/-- No bit past the size is set in received bytes. -/
def ClearPadding : FilterHistory → Prop
  | .new _ _ => True
  | .deserialize data sizeInBits _ =>
      ∀ i, sizeInBits ≤ i → getBit data i = false
  | .add filter _ => filter.ClearPadding
  | .merge filter other => filter.ClearPadding ∧ other.ClearPadding

end FilterHistory

namespace BloomFilterCRDT

/-! ## Counting -/

theorem countBits_eq (bytes : Bytes) : ∀ count : ℕ, countBits count bytes =
    count + (List.range (8 * bytes.length)).countP (getBit bytes) := by
  induction bytes with
  | nil =>
      intro count
      rfl
  | cons byte bytes ih =>
      intro count
      have hbyte : (List.range 8).countP (getBit (byte :: bytes)) =
          bitCount byte.toNat := by
        rw [bitCount_eq_countP byte.toNat_lt]
        refine List.countP_congr fun i hi => ?_
        rw [List.mem_range] at hi
        have hzero : i / 8 = 0 := by omega
        rw [getBit_eq_testBit, hzero, Nat.mod_eq_of_lt hi]
        rfl
      have hrest : (getBit (byte :: bytes)) ∘ (8 + ·) = getBit bytes := by
        funext i
        have hdiv : (8 + i) / 8 = i / 8 + 1 := by omega
        have hmod : (8 + i) % 8 = i % 8 := by omega
        rw [Function.comp, getBit_eq_testBit, getBit_eq_testBit, hdiv, hmod]
        rfl
      have hlength : 8 * (byte :: bytes).length = 8 + 8 * bytes.length := by
        rw [List.length_cons]
        omega
      rw [countBits, ih, hlength, List.range_add, List.countP_append,
        List.countP_map, hbyte, hrest, Nat.add_assoc]

/-- All bits are counted, those past the size included. -/
theorem countBits_bits (f : BloomFilterCRDT) :
    countBits 0 f.bits = f.setCount +
      ((List.range (8 * f.bits.length - f.sizeInBits)).map
        (f.sizeInBits + ·)).countP (getBit f.bits) := by
  have hsize : 8 * f.bits.length =
      f.sizeInBits + (8 * f.bits.length - f.sizeInBits) := by
    rw [f.length_bits, byteLength]
    omega
  conv_lhs => rw [countBits_eq, hsize, List.range_add, List.countP_append]
  rw [Nat.zero_add, setCount]

/-- The fill ratio is the fraction of the filter's bits that are set exactly if
no bit past the size is set. -/
theorem fillRatio_eq_iff (f : BloomFilterCRDT) :
    f.fillRatio = f.setCount / f.sizeInBits ↔
      ∀ i, f.sizeInBits ≤ i → getBit f.bits i = false := by
  have hpos : (f.sizeInBits : ℚ) ≠ 0 := by
    exact_mod_cast f.size_pos.ne'
  rw [fillRatio, div_left_inj' hpos, Nat.cast_inj, countBits_bits,
    Nat.add_eq_left, List.countP_eq_zero]
  constructor
  · intro h i hi
    by_cases hlt : i < 8 * f.bits.length
    · have hmem : i ∈ (List.range (8 * f.bits.length - f.sizeInBits)).map
          (f.sizeInBits + ·) :=
        List.mem_map.2 ⟨i - f.sizeInBits, List.mem_range.2 (by omega),
          Nat.add_sub_cancel' hi⟩
      exact Bool.eq_false_iff.2 (h i hmem)
    · exact getBit_of_length_le (not_lt.1 hlt)
  · intro h i hi
    obtain ⟨j, -, rfl⟩ := List.mem_map.1 hi
    rw [h _ (Nat.le_add_right _ _)]
    exact Bool.false_ne_true

/-! ## Bits past the size -/

theorem withBits_ok {sizeInBits numHashFunctions : ℕ} {bits : Bytes}
    {hbits : bits.length = byteLength sizeInBits} {f : BloomFilterCRDT}
    (h : withBits sizeInBits numHashFunctions bits hbits = .ok f) :
    f.bits = bits ∧ f.sizeInBits = sizeInBits := by
  rw [withBits] at h
  split at h
  · cases h
  split at h
  · cases h
  · cases h
    exact ⟨rfl, rfl⟩

/-- What is merged is of one size. -/
theorem merge_eq_ok {f g m : BloomFilterCRDT} (h : f.merge g = .ok m) :
    m.sizeInBits = f.sizeInBits ∧ m.sizeInBits = g.sizeInBits ∧
      ∀ i, getBit m.bits i = (getBit f.bits i || getBit g.bits i) := by
  rw [merge] at h
  split at h
  · cases h
  rename_i hsize
  split at h
  · cases h
  cases h
  have hlength : g.bits.length = f.bits.length := by
    rw [f.length_bits, g.length_bits, not_not.1 hsize]
  exact ⟨rfl, not_not.1 hsize, getBit_orBytes hlength⟩

end BloomFilterCRDT

namespace FilterHistory

open BloomFilterCRDT

/-- Bits past the size come from received bytes, and stay. -/
theorem clearPadding_iff : ∀ (history : FilterHistory) {f : BloomFilterCRDT},
    history.filter = .ok f →
      ((∀ i, f.sizeInBits ≤ i → getBit f.bits i = false) ↔
        history.ClearPadding) := by
  intro history
  induction history with
  | new sizeInBits numHashFunctions =>
      intro f h
      obtain ⟨hbits, -⟩ := withBits_ok h
      refine iff_of_true (fun i _ => ?_) trivial
      rw [hbits, getBit_replicate]
  | deserialize data sizeInBits numHashFunctions =>
      intro f h
      rw [filter, BloomFilterCRDT.deserialize] at h
      split at h
      · cases h
      obtain ⟨hbits, hsize⟩ := withBits_ok h
      rw [hbits, hsize, ClearPadding]
  | add history term ih =>
      intro f h
      obtain ⟨g, hg, hadd⟩ := exists_ok_of_bind h
      obtain rfl : g.add term = f := Except.ok.inj hadd
      rw [ClearPadding, ← ih hg]
      obtain ⟨⟨hsize, -⟩, hbits⟩ := foldl_setBit g term g.numHashFunctions
      have hsame : ∀ i, g.sizeInBits ≤ i →
          getBit (g.add term).bits i = getBit g.bits i := by
        intro i hi
        rw [Bool.eq_iff_iff, BloomFilterCRDT.add, hbits i]
        refine or_iff_left ?_
        rintro ⟨j, -, rfl⟩
        exact absurd hi (not_le.2 (Nat.mod_lt _ g.size_pos))
      constructor
      · intro hclear i hi
        exact (hsame i hi).symm.trans (hclear i (hsize.symm ▸ hi))
      · intro hclear i hi
        have hi' : g.sizeInBits ≤ i := hsize ▸ hi
        exact (hsame i hi').trans (hclear i hi')
  | merge history other ih ih' =>
      intro m h
      obtain ⟨f, hf, h⟩ := exists_ok_of_bind h
      obtain ⟨g, hg, hmerge⟩ := exists_ok_of_bind h
      obtain ⟨hsize, hsize', hbits⟩ := merge_eq_ok hmerge
      rw [ClearPadding, ← ih hf, ← ih' hg, ← hsize, ← hsize']
      simp only [hbits, Bool.or_eq_false_iff]
      exact ⟨fun h => ⟨fun i hi => (h i hi).1, fun i hi => (h i hi).2⟩,
        fun h i hi => ⟨h.1 i hi, h.2 i hi⟩⟩

end FilterHistory

/-- The fill ratio of a filter is the fraction of its bits that are set, between
zero and one, exactly if no received bytes in its history have a bit set past
the size. -/
theorem fillRatio_fraction_iff {history : FilterHistory} {f : BloomFilterCRDT}
    (h : history.filter = .ok f) :
    (f.fillRatio = f.setCount / f.sizeInBits ∧ 0 ≤ f.fillRatio ∧
      f.fillRatio ≤ 1) ↔ history.ClearPadding := by
  rw [← history.clearPadding_iff h, ← f.fillRatio_eq_iff]
  constructor
  · exact And.left
  · intro heq
    have hle : f.setCount ≤ f.sizeInBits := by
      have hcount : f.setCount ≤ (List.range f.sizeInBits).length :=
        List.countP_le_length
      rwa [List.length_range] at hcount
    have hpos : (0 : ℚ) < f.sizeInBits := by
      exact_mod_cast f.size_pos
    refine ⟨heq, ?_, ?_⟩
    · rw [heq]
      positivity
    · rw [heq, div_le_one hpos]
      exact_mod_cast hle

/-- A term added to a filter of eight bits that were received. -/
theorem fillRatio_fraction_iff_received :
    ∃ f, ((FilterHistory.deserialize [0x01] 8 1).add []).filter = .ok f ∧
      f.fillRatio ≤ 1 := by
  have h : ((FilterHistory.deserialize [0x01] 8 1).add []).filter =
      .ok (BloomFilterCRDT.add ⟨[0x01], 1, 8, by decide, rfl⟩ []) := rfl
  refine ⟨_, h, ((fillRatio_fraction_iff h).2 fun i hi => ?_).2.2⟩
  exact getBit_of_length_le hi

/-- A filter of one bit is received with all bits of its byte set: its fill
ratio is eight. -/
theorem fillRatio_exceeds_one :
    ∃ f, (FilterHistory.deserialize [0xFF] 1 7).filter = .ok f ∧
      f.setCount = 1 ∧ f.fillRatio = 8 := by
  refine ⟨⟨[0xFF], 7, 1, by decide, rfl⟩, rfl, rfl, ?_⟩
  rw [BloomFilterCRDT.fillRatio, BloomFilterCRDT.countBits_eq]
  have hcount : (List.range (8 * [(0xFF : UInt8)].length)).countP
      (getBit [0xFF]) = 8 := by
    decide
  rw [hcount]
  norm_num

end Collabswarm.Index
