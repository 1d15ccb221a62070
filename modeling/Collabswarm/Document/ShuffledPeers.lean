import Collabswarm.Support.Shuffling

/-!
# The order of the peers

`load` asks the connected peers in a shuffled order.  Every order comes from
the random numbers of one box, whose side for the exchange at position `i` is
`1 / (i + 1)`, so all orders are equally likely.
-/

namespace Collabswarm.Document

variable {T : Type}

/-- The values of `Math.random()`, by the position that is exchanged. -/
structure MathRandom where
  value : ℕ → ℚ
  nonneg : ∀ i, 0 ≤ value i
  lt_one : ∀ i, value i < 1

/-- `Math.floor(Math.random() * (i + 1))`. -/
def MathRandom.draw (random : MathRandom) (i : ℕ) : ℕ :=
  ⌊random.value i * (i + 1)⌋.toNat

/-- `shuffleArray`. -/
def shuffleArray (random : MathRandom) (array : List T) : List T :=
  shuffleFrom random.draw (array.length - 1) array

/-- `_shuffledPeers`, from the remote addresses of the connections. -/
def shuffledPeers (random : MathRandom) (peers : List T) : List T :=
  if peers.length = 0 then peers else shuffleArray random peers

namespace MathRandom

variable (random : MathRandom)

theorem value_mul_nonneg (i : ℕ) : 0 ≤ random.value i * (i + 1) :=
  mul_nonneg (random.nonneg i) (by positivity)

/-- A draw is the number of the part of the unit interval that was hit. -/
theorem draw_eq_iff (i j : ℕ) :
    random.draw i = j ↔
      (j : ℚ) / (i + 1) ≤ random.value i ∧
        random.value i < (j + 1 : ℚ) / (i + 1) := by
  have hpos : (0 : ℚ) < i + 1 := by positivity
  have hfloor : 0 ≤ ⌊random.value i * (i + 1)⌋ :=
    Int.floor_nonneg.2 (random.value_mul_nonneg i)
  rw [div_le_iff₀ hpos, lt_div_iff₀ hpos]
  have hcast : random.draw i = j ↔ ⌊random.value i * (i + 1)⌋ = (j : ℤ) := by
    rw [draw]
    omega
  rw [hcast, Int.floor_eq_iff]
  norm_cast

theorem draw_downward : Downward random.draw := by
  intro i
  have hlt : random.value i * (i + 1) < i + 1 := by
    have hpos : (0 : ℚ) < i + 1 := by positivity
    nlinarith [random.lt_one i]
  have hfloor : ⌊random.value i * (i + 1)⌋ < (i + 1 : ℤ) :=
    Int.floor_lt.2 (by push_cast; exact hlt)
  rw [draw]
  omega

end MathRandom

theorem shuffledPeers_eq (random : MathRandom) (peers : List T) :
    shuffledPeers random peers = shuffleArray random peers := by
  rw [shuffledPeers]
  split
  · rename_i hlength
    rw [List.length_eq_zero_iff.1 hlength]
    rfl
  · rfl

/-- The elements are moved as their positions are. -/
theorem map_some_shuffleArray (random : MathRandom) (array : List T) :
    (shuffleArray random array).map some =
      (shuffleArray random (List.range array.length)).map (array[·]?) := by
  have harray : array.map some =
      (List.range array.length).map (array[·]?) := by
    refine List.ext_getElem (by simp) ?_
    intro i hi _
    simp
  rw [shuffleArray, shuffleArray, List.length_range, ← map_shuffleFrom,
    ← map_shuffleFrom, harray]

end Collabswarm.Document
