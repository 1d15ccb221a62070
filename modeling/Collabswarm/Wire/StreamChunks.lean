import Collabswarm.Support.Bytes

/-!
# Reading a stream of chunks

`readUint8Iterable` collects the chunks of a stream, which may be arrays or
lists of arrays, and copies them into one array.  The result depends on the
bytes only, not on how the stream was cut into chunks.
-/

namespace Collabswarm

/-- A chunk of a stream. -/
inductive Chunk where
  | uint8Array (bytes : Bytes)
  | uint8ArrayList (parts : List Bytes)
  | bufferList (parts : List Bytes)
  deriving DecidableEq

/-- The bytes of a chunk. -/
def Chunk.bytes : Chunk → Bytes
  | .uint8Array bytes => bytes
  | .uint8ArrayList parts => parts.flatten
  | .bufferList parts => parts.flatten

/-- `chunk.length`. -/
def Chunk.length (chunk : Chunk) : ℕ := chunk.bytes.length

/-- Why reading a stream throws. -/
inductive ReadError where
  | range (message : String)
  | other
  deriving DecidableEq

/-- What a stream delivers: chunks, some of them missing, and the error that
ends it, if any. -/
structure StreamSource where
  chunks : List (Option Chunk)
  failure : Option ReadError := none

namespace StreamSource

/-- The bytes of a list of chunks. -/
def content (chunks : List (Option Chunk)) : Bytes :=
  chunks.flatMap fun chunk => (chunk.map Chunk.bytes).getD []

/-- Whether a length is more than the limit, if there is one. -/
def exceeds (length : ℕ) (maxSize : Option ℕ) : Bool :=
  match maxSize with
  | none => false
  | some maxSize => decide (maxSize < length)

/-- The error for a stream that is too long. -/
def tooLong (maxSize : Option ℕ) : ReadError :=
  .range s!"Stream exceeded maximum allowed size of {maxSize.getD 0} bytes"

/-- The first loop of `readUint8Iterable`, with the length and the chunks so
far. -/
def collectChunks (maxSize : Option ℕ) :
    List (Option Chunk) → ℕ → List Chunk → Except ReadError (ℕ × List Chunk)
  | [], length, chunks => .ok (length, chunks)
  | none :: rest, length, chunks => collectChunks maxSize rest length chunks
  | some chunk :: rest, length, chunks =>
      if exceeds (length + chunk.length) maxSize then .error (tooLong maxSize)
      else
        collectChunks maxSize rest (length + chunk.length) (chunks ++ [chunk])

/-- `assembled.set(bytes, index)`. -/
def write (assembled bytes : Bytes) (index : ℕ) : Bytes :=
  assembled.take index ++ bytes ++ assembled.drop (index + bytes.length)

/-- The loop that copies a `BufferList` byte by byte. -/
def writeEach (assembled : Bytes) : Bytes → ℕ → Bytes
  | [], _ => assembled
  | b :: bytes, index =>
      writeEach (write assembled [b] index) bytes (index + 1)

/-- Copying one chunk. -/
def writeChunk (assembled : Bytes) (chunk : Chunk) (index : ℕ) : Bytes :=
  match chunk with
  | .bufferList parts => writeEach assembled parts.flatten index
  | .uint8Array bytes => write assembled bytes index
  | .uint8ArrayList parts => write assembled parts.flatten index

/-- The second loop of `readUint8Iterable`. -/
def assemble : Bytes → List Chunk → ℕ → Bytes
  | assembled, [], _ => assembled
  | assembled, chunk :: rest, index =>
      assemble (writeChunk assembled chunk index) rest (index + chunk.length)

/-- `readUint8Iterable`. -/
def readUint8Iterable (source : StreamSource) (maxSize : Option ℕ) :
    Except ReadError Bytes := do
  let (length, chunks) ← collectChunks maxSize source.chunks 0 []
  match source.failure with
  | some e => throw e
  | none => return assemble (List.replicate length 0) chunks 0

/-! ## Copying -/

theorem write_append {done rest bytes : Bytes} :
    write (done ++ rest) bytes done.length =
      done ++ bytes ++ rest.drop bytes.length := by
  simp [write, List.drop_append]

theorem writeEach_append {bytes : Bytes} :
    ∀ {done rest : Bytes}, bytes.length ≤ rest.length →
      writeEach (done ++ rest) bytes done.length =
        done ++ bytes ++ rest.drop bytes.length := by
  induction bytes with
  | nil =>
      intro done rest _
      simp [writeEach]
  | cons b bytes ih =>
      intro done rest hle
      rw [List.length_cons] at hle
      have hrest : bytes.length ≤ (rest.drop 1).length := by
        rw [List.length_drop]
        omega
      have hstep := @ih (done ++ [b]) (rest.drop 1) hrest
      rw [writeEach, write_append]
      rw [List.length_append, List.length_singleton] at hstep
      simpa [List.drop_drop, Nat.add_comm] using hstep

theorem writeChunk_append {chunk : Chunk} {done rest : Bytes}
    (hle : chunk.length ≤ rest.length) :
    writeChunk (done ++ rest) chunk done.length =
      done ++ chunk.bytes ++ rest.drop chunk.length := by
  cases chunk with
  | bufferList parts => exact writeEach_append hle
  | uint8Array bytes => exact write_append
  | uint8ArrayList parts => exact write_append

/-- The chunks are copied one after the other. -/
theorem assemble_append : ∀ (chunks : List Chunk) (done rest : Bytes),
    (chunks.flatMap Chunk.bytes).length = rest.length →
    assemble (done ++ rest) chunks done.length =
      done ++ chunks.flatMap Chunk.bytes := by
  intro chunks
  induction chunks with
  | nil =>
      intro done rest hlength
      have hrest : rest = [] := List.length_eq_zero_iff.1 hlength.symm
      simp [assemble, hrest]
  | cons chunk chunks ih =>
      intro done rest hlength
      rw [List.flatMap_cons, List.length_append] at hlength
      have hle : chunk.length ≤ rest.length := by
        rw [Chunk.length]
        omega
      have hnext := ih (done ++ chunk.bytes) (rest.drop chunk.length)
        (by rw [List.length_drop, Chunk.length]; omega)
      rw [List.length_append] at hnext
      rw [assemble, writeChunk_append hle, List.flatMap_cons,
        ← List.append_assoc]
      exact hnext

theorem assemble_eq (chunks : List Chunk) :
    assemble (List.replicate (chunks.flatMap Chunk.bytes).length 0) chunks 0 =
      chunks.flatMap Chunk.bytes :=
  assemble_append chunks [] _ (by simp)

/-! ## Collecting -/

theorem exceeds_mono {m n : ℕ} {maxSize : Option ℕ} (hmn : m ≤ n)
    (h : exceeds m maxSize = true) : exceeds n maxSize = true := by
  cases maxSize with
  | none => cases h
  | some maxSize =>
      rw [exceeds, decide_eq_true_eq] at h ⊢
      omega

theorem collectChunks_eq (maxSize : Option ℕ) :
    ∀ (rest : List (Option Chunk)) (chunks : List Chunk),
      exceeds (chunks.flatMap Chunk.bytes).length maxSize = false →
      collectChunks maxSize rest (chunks.flatMap Chunk.bytes).length chunks =
        if exceeds (chunks.flatMap Chunk.bytes ++ content rest).length maxSize
        then .error (tooLong maxSize)
        else .ok ((chunks.flatMap Chunk.bytes ++ content rest).length,
          chunks ++ rest.filterMap id) := by
  intro rest
  induction rest with
  | nil =>
      intro chunks h
      rw [content, List.flatMap_nil, List.append_nil, h,
        if_neg Bool.false_ne_true, List.filterMap_nil, List.append_nil]
      rfl
  | cons chunk rest ih =>
      intro chunks h
      cases chunk with
      | none => exact ih chunks h
      | some chunk =>
          have hnext : (chunks.flatMap Chunk.bytes).length + chunk.length =
              ((chunks ++ [chunk]).flatMap Chunk.bytes).length := by
            simp [Chunk.length]
          have hcontent : chunks.flatMap Chunk.bytes ++
              content (some chunk :: rest) =
                (chunks ++ [chunk]).flatMap Chunk.bytes ++ content rest := by
            simp [content]
          rw [collectChunks, hnext, hcontent]
          cases hlong : exceeds ((chunks ++ [chunk]).flatMap
              Chunk.bytes).length maxSize with
          | true =>
              have hall := exceeds_mono (n := ((chunks ++ [chunk]).flatMap
                Chunk.bytes ++ content rest).length) (by simp) hlong
              rw [if_pos rfl, if_pos hall]
          | false =>
              rw [if_neg Bool.false_ne_true, ih _ hlong]
              simp

theorem flatMap_filterMap_bytes (chunks : List (Option Chunk)) :
    (chunks.filterMap id).flatMap Chunk.bytes = content chunks := by
  rw [content]
  induction chunks with
  | nil => rfl
  | cons chunk rest ih =>
      cases chunk with
      | none => simpa using ih
      | some chunk => simpa using ih

/-- What is read from a stream. -/
theorem readUint8Iterable_eq (source : StreamSource) (maxSize : Option ℕ) :
    readUint8Iterable source maxSize =
      if exceeds (content source.chunks).length maxSize then
        .error (tooLong maxSize)
      else
        match source.failure with
        | some e => .error e
        | none => .ok (content source.chunks) := by
  have hcollect := collectChunks_eq maxSize source.chunks [] (by
    cases maxSize <;> simp [exceeds])
  rw [List.flatMap_nil, List.nil_append, List.nil_append, List.length_nil]
    at hcollect
  rw [readUint8Iterable, hcollect]
  split
  · rfl
  · cases source.failure with
    | some e => rfl
    | none =>
        have hassemble := assemble_eq (source.chunks.filterMap id)
        rw [flatMap_filterMap_bytes] at hassemble
        exact congrArg Except.ok hassemble

end StreamSource

end Collabswarm
