import Collabswarm.Support.BitString
import Collabswarm.Support.JsString

/-!
# Bloom filters

`BloomFilterCRDT`: a term sets the bits that double hashing assigns to it, and
filters of one shape are merged by bitwise disjunction.  The bits never get
lost, so a filter that a term was added to has the term, and so has every
filter into which that one was merged.

The arithmetic of the indices is that of doubles: products and sums beyond
`2 ^ 53` are rounded.
-/

namespace Collabswarm.Index

open BitString

/-! ## Hashing -/

/-- The double nearest to a natural number, ties to even. -/
def roundDouble (n : ℕ) : ℕ :=
  if n < 2 ^ 53 then n
  else
    let unit := 2 ^ (n.log2 - 52)
    let quotient := n / unit
    let remainder := n % unit
    if 2 * remainder < unit ∨ (2 * remainder = unit ∧ quotient % 2 = 0) then
      quotient * unit
    else (quotient + 1) * unit

/-- FNV-1a over the code units of a term. -/
def fnv1a (offsetBasis : UInt32) (term : JsString) : UInt32 :=
  term.foldl (fun h c => (h ^^^ c.toUInt32) * 0x01000193) offsetBasis

/-- `_baseHashes`. -/
def baseHashes (term : JsString) : UInt32 × UInt32 :=
  (fnv1a 0x811c9dc5 term, fnv1a 0x6c62272e term ||| 1)

/-- The index of the `i`th bit of a term. -/
def bitIndex (sizeInBits : ℕ) (term : JsString) (i : ℕ) : ℕ :=
  let (h1, h2) := baseHashes term
  roundDouble (h1.toNat + roundDouble (i * h2.toNat)) % sizeInBits

/-! ## The filter -/

/-- The number of bytes of a filter. -/
def byteLength (sizeInBits : ℕ) : ℕ := (sizeInBits + 7) / 8

/-- `BloomFilterCRDT`. -/
@[ext] structure BloomFilterCRDT where
  bits : Bytes
  numHashFunctions : ℕ
  sizeInBits : ℕ
  size_pos : 0 < sizeInBits
  length_bits : bits.length = byteLength sizeInBits
  deriving DecidableEq

namespace BloomFilterCRDT

/-- The checks of the constructor, around given bits. -/
def withBits (sizeInBits numHashFunctions : ℕ) (bits : Bytes)
    (hbits : bits.length = byteLength sizeInBits) :
    Except String BloomFilterCRDT :=
  if h : sizeInBits = 0 then
    .error s!"sizeInBits must be a positive integer, got {sizeInBits}"
  else if numHashFunctions = 0 then
    .error
      s!"numHashFunctions must be a positive integer, got {numHashFunctions}"
  else
    .ok ⟨bits, numHashFunctions, sizeInBits, Nat.pos_of_ne_zero h, hbits⟩

/-- The constructor. -/
def new (sizeInBits numHashFunctions : ℕ) : Except String BloomFilterCRDT :=
  withBits sizeInBits numHashFunctions
    (List.replicate (byteLength sizeInBits) 0) List.length_replicate

/-- `_setBit`. -/
def setBit (f : BloomFilterCRDT) (index : ℕ) : BloomFilterCRDT :=
  { f with
    bits := BitString.setBit f.bits index
    length_bits := (length_setBit f.bits index).trans f.length_bits }

/-- `add`. -/
def add (f : BloomFilterCRDT) (term : JsString) : BloomFilterCRDT :=
  (List.range f.numHashFunctions).foldl
    (fun f i => f.setBit (bitIndex f.sizeInBits term i)) f

/-- `has`. -/
def has (f : BloomFilterCRDT) (term : JsString) : Bool :=
  (List.range f.numHashFunctions).all fun i =>
    getBit f.bits (bitIndex f.sizeInBits term i)

/-- `merge`. -/
def merge (f other : BloomFilterCRDT) : Except String BloomFilterCRDT :=
  if h : f.sizeInBits ≠ other.sizeInBits then
    .error (s!"Cannot merge filters of different sizes: {f.sizeInBits} vs " ++
      s!"{other.sizeInBits}")
  else if f.numHashFunctions ≠ other.numHashFunctions then
    .error ("Cannot merge filters with different hash function counts: " ++
      s!"{f.numHashFunctions} vs {other.numHashFunctions}")
  else
    .ok { f with
      bits := orBytes f.bits other.bits
      length_bits := by
        have hlength : other.bits.length = f.bits.length := by
          rw [f.length_bits, other.length_bits, not_not.1 h]
        rw [length_orBytes hlength, f.length_bits] }

/-- `serialize`. -/
def serialize (f : BloomFilterCRDT) : Bytes := f.bits

/-- `deserialize`. -/
def deserialize (data : Bytes) (sizeInBits numHashFunctions : ℕ) :
    Except String BloomFilterCRDT :=
  if h : data.length ≠ byteLength sizeInBits then
    .error (s!"Expected {byteLength sizeInBits} bytes for {sizeInBits}-bit " ++
      s!"filter, got {data.length}")
  else withBits sizeInBits numHashFunctions data (not_not.1 h)

/-! ## Bits -/

/-- The filter has the shape. -/
def Shaped (sizeInBits numHashFunctions : ℕ) (f : BloomFilterCRDT) : Prop :=
  f.sizeInBits = sizeInBits ∧ f.numHashFunctions = numHashFunctions

variable {f g : BloomFilterCRDT} {sizeInBits numHashFunctions : ℕ}

theorem bitIndex_lt (f : BloomFilterCRDT) (term : JsString) (i : ℕ) :
    bitIndex f.sizeInBits term i / 8 < f.bits.length := by
  have hlt : bitIndex f.sizeInBits term i < f.sizeInBits :=
    Nat.mod_lt _ f.size_pos
  rw [f.length_bits, byteLength]
  omega

theorem has_iff {term : JsString} :
    f.has term = true ↔ ∀ i < f.numHashFunctions,
      getBit f.bits (bitIndex f.sizeInBits term i) = true := by
  rw [has, List.all_eq_true]
  exact forall_congr' fun i => by rw [List.mem_range]

/-- The bits of a term that is being added. -/
theorem foldl_setBit (f : BloomFilterCRDT) (term : JsString) (n : ℕ) :
    Shaped f.sizeInBits f.numHashFunctions ((List.range n).foldl
        (fun f i => f.setBit (bitIndex f.sizeInBits term i)) f) ∧
      ∀ j, getBit ((List.range n).foldl
          (fun f i => f.setBit (bitIndex f.sizeInBits term i)) f).bits j =
          true ↔
        getBit f.bits j = true ∨ ∃ i < n, j = bitIndex f.sizeInBits term i := by
  induction n with
  | zero => exact ⟨⟨rfl, rfl⟩, by simp⟩
  | succ n ih =>
      obtain ⟨hshaped, hbits⟩ := ih
      rw [List.range_succ, List.foldl_append, List.foldl_cons, List.foldl_nil]
      refine ⟨hshaped, fun j => ?_⟩
      rw [setBit, getBit_setBit (bitIndex_lt _ term n), hshaped.1,
        Bool.or_eq_true, decide_eq_true_eq, hbits j]
      constructor
      · rintro (rfl | h | ⟨i, hi, rfl⟩)
        · exact Or.inr ⟨n, n.lt_succ_self, rfl⟩
        · exact Or.inl h
        · exact Or.inr ⟨i, hi.trans n.lt_succ_self, rfl⟩
      · rintro (h | ⟨i, hi, rfl⟩)
        · exact Or.inr (Or.inl h)
        · rcases Nat.lt_succ_iff_lt_or_eq.1 hi with hi | rfl
          · exact Or.inr (Or.inr ⟨i, hi, rfl⟩)
          · exact Or.inl rfl

theorem shaped_add (h : f.Shaped sizeInBits numHashFunctions)
    (term : JsString) : (f.add term).Shaped sizeInBits numHashFunctions := by
  obtain ⟨hsize, hhash⟩ := (foldl_setBit f term f.numHashFunctions).1
  exact ⟨hsize.trans h.1, hhash.trans h.2⟩

/-- A term that was added is found. -/
theorem has_add (f : BloomFilterCRDT) (term : JsString) :
    (f.add term).has term = true := by
  obtain ⟨⟨hsize, hhash⟩, hbits⟩ := foldl_setBit f term f.numHashFunctions
  rw [has_iff]
  intro i hi
  have hi' : i < f.numHashFunctions := by
    rw [← hhash]
    exact hi
  refine (hbits _).2 (Or.inr ⟨i, hi', ?_⟩)
  rw [add, hsize]

/-- The second filter has the shape and all bits of the first. -/
structure Within (f g : BloomFilterCRDT) : Prop where
  size : g.sizeInBits = f.sizeInBits
  hash : g.numHashFunctions = f.numHashFunctions
  bits : ∀ i, getBit f.bits i = true → getBit g.bits i = true

/-- A larger filter finds all terms that the smaller one finds. -/
theorem Within.has (h : Within f g) {term : JsString}
    (hf : f.has term = true) : g.has term = true := by
  rw [has_iff] at hf ⊢
  rw [h.size, h.hash]
  exact fun i hi => h.bits _ (hf i hi)

theorem Within.trans {m : BloomFilterCRDT} (h : Within f g) (h' : Within g m) :
    Within f m :=
  ⟨h'.size.trans h.size, h'.hash.trans h.hash,
    fun i hi => h'.bits i (h.bits i hi)⟩

theorem within_add (f : BloomFilterCRDT) (term : JsString) :
    Within f (f.add term) := by
  obtain ⟨⟨hsize, hhash⟩, hbits⟩ := foldl_setBit f term f.numHashFunctions
  exact ⟨hsize, hhash, fun i hi => (hbits i).2 (Or.inl hi)⟩

/-- Filters of one shape are merged into the disjunction of their bits. -/
theorem merge_ok (hf : f.Shaped sizeInBits numHashFunctions)
    (hg : g.Shaped sizeInBits numHashFunctions) :
    ∃ m, f.merge g = .ok m ∧ m.Shaped sizeInBits numHashFunctions ∧
      m.bits = orBytes f.bits g.bits ∧ Within f m ∧ Within g m := by
  have hsize : f.sizeInBits = g.sizeInBits := hf.1.trans hg.1.symm
  have hhash : f.numHashFunctions = g.numHashFunctions := hf.2.trans hg.2.symm
  have hlength : g.bits.length = f.bits.length := by
    rw [f.length_bits, g.length_bits, hsize]
  rw [merge, dif_neg (not_not.2 hsize), if_neg (not_not.2 hhash)]
  refine ⟨_, rfl, hf, rfl, ⟨rfl, rfl, fun i hi => ?_⟩,
    ⟨hsize, hhash, fun i hi => ?_⟩⟩
  · rw [getBit_orBytes hlength, hi, Bool.true_or]
  · rw [getBit_orBytes hlength, hi, Bool.or_true]

/-- What is read from bytes of the right length. -/
theorem deserialize_ok (hsize : 0 < sizeInBits) (hhash : 0 < numHashFunctions)
    {data : Bytes} (hdata : data.length = byteLength sizeInBits) :
    ∃ m, deserialize data sizeInBits numHashFunctions = .ok m ∧
      m.Shaped sizeInBits numHashFunctions ∧ m.bits = data := by
  rw [deserialize, dif_neg (not_not.2 hdata), withBits, dif_neg hsize.ne',
    if_neg hhash.ne']
  exact ⟨_, rfl, ⟨rfl, rfl⟩, rfl⟩

theorem deserialize_error (numHashFunctions : ℕ) {data : Bytes}
    (hdata : data.length ≠ byteLength sizeInBits) :
    ∃ e, deserialize data sizeInBits numHashFunctions = .error e := by
  rw [deserialize, dif_pos hdata]
  exact ⟨_, rfl⟩

/-- A new filter has no bits. -/
theorem new_ok (hsize : 0 < sizeInBits) (hhash : 0 < numHashFunctions) :
    ∃ m, new sizeInBits numHashFunctions = .ok m ∧
      m.Shaped sizeInBits numHashFunctions ∧
      m.bits = List.replicate (byteLength sizeInBits) 0 := by
  rw [new, withBits, dif_neg hsize.ne', if_neg hhash.ne']
  exact ⟨_, rfl, ⟨rfl, rfl⟩, rfl⟩

end BloomFilterCRDT

end Collabswarm.Index
