import Collabswarm.Wire.StreamChunks

/-!
# Reading until a message is complete

`readFirstDeserializable` hands the bytes of a stream to the deserialiser after
every chunk, until it accepts them.  The bytes are collected in a buffer that
grows by doubling, up to the limit.  The deserialiser sees what a reader without
a buffer would show to it.
-/

namespace Collabswarm

/-- Why `readFirstDeserializable` rejects. -/
inductive FirstReadError (E : Type) where
  | ended (message : String)
  | deserialize (error : E)
  | read (error : ReadError)
  deriving DecidableEq

/-- What happens while a stream is read. -/
inductive ReadEvent where
  | chunk (chunk : Option Chunk)
  | handed (data : Bytes)
  deriving DecidableEq

/-- The bytes of the chunks that were read. -/
def bytesRead (trace : List ReadEvent) : Bytes :=
  trace.flatMap fun event =>
    match event with
    | .chunk chunk => (chunk.map Chunk.bytes).getD []
    | .handed _ => []

/-- What was read and handed on, and how the call settles. -/
structure FirstRead (E T : Type) where
  trace : List ReadEvent
  result : Except (FirstReadError E) T

/-- An event comes first. -/
def FirstRead.after {E T : Type} (event : ReadEvent) (r : FirstRead E T) :
    FirstRead E T :=
  { r with trace := event :: r.trace }

namespace StreamSource

/-- The capacity of the next buffer. -/
def nextCapacity (capacity nextLength : ℕ) (maxSize : Option ℕ) : ℕ :=
  let grownCapacity := max nextLength (max 1 (capacity * 2))
  match maxSize with
  | none => grownCapacity
  | some maxSize => min grownCapacity maxSize

/-- `array.set(bytes, index)`, which throws if the bytes do not fit. -/
def set (array bytes : Bytes) (index : ℕ) : Except ReadError Bytes :=
  if index + bytes.length ≤ array.length then .ok (write array bytes index)
  else .error (.range "offset is out of bounds")

/-- A buffer with room for `nextLength` bytes. -/
def grow (assembled : Bytes) (length nextLength : ℕ) (maxSize : Option ℕ) :
    Except ReadError Bytes :=
  if assembled.length < nextLength then
    set (List.replicate (nextCapacity assembled.length nextLength maxSize) 0)
      (assembled.take length) 0
  else .ok assembled

section Reading

variable {E T : Type} (deserialize : Bytes → Except E T) (maxSize : Option ℕ)
  (failure : Option ReadError)

/-- The loop of `readFirstDeserializable`. -/
def readFirstLoop : List (Option Chunk) → Bytes → ℕ → FirstReadError E →
    FirstRead E T
  | [], _, _, lastError =>
      ⟨[], .error (failure.elim lastError .read)⟩
  | none :: rest, assembled, length, lastError =>
      (readFirstLoop rest assembled length lastError).after (.chunk none)
  | some chunk :: rest, assembled, length, _ =>
      .after (.chunk (some chunk)) <|
        if exceeds (length + chunk.length) maxSize then
          ⟨[], .error (.read (tooLong maxSize))⟩
        else
          let bytes := chunk.bytes
          let nextLength := length + bytes.length
          if exceeds nextLength maxSize then
            ⟨[], .error (.read (tooLong maxSize))⟩
          else
            match grow assembled length nextLength maxSize with
            | .error e => ⟨[], .error (.read e)⟩
            | .ok assembled =>
            match set assembled bytes length with
            | .error e => ⟨[], .error (.read e)⟩
            | .ok assembled =>
              let data := assembled.take nextLength
              .after (.handed data) <|
                match deserialize data with
                | .ok value => ⟨[], .ok value⟩
                | .error e =>
                    readFirstLoop rest assembled nextLength (.deserialize e)

/-- `readFirstDeserializable`. -/
def readFirstDeserializable (source : StreamSource) : FirstRead E T :=
  readFirstLoop deserialize maxSize source.failure source.chunks [] 0
    (.ended "Stream ended before a complete message arrived")

/-- Reading without a buffer. -/
def readPrefixes : List (Option Chunk) → Bytes → FirstReadError E →
    FirstRead E T
  | [], _, lastError => ⟨[], .error (failure.elim lastError .read)⟩
  | none :: rest, done, lastError =>
      (readPrefixes rest done lastError).after (.chunk none)
  | some chunk :: rest, done, _ =>
      .after (.chunk (some chunk)) <|
        if exceeds (done ++ chunk.bytes).length maxSize then
          ⟨[], .error (.read (tooLong maxSize))⟩
        else
          .after (.handed (done ++ chunk.bytes)) <|
            match deserialize (done ++ chunk.bytes) with
            | .ok value => ⟨[], .ok value⟩
            | .error e => readPrefixes rest (done ++ chunk.bytes) (.deserialize e)

end Reading

/-! ## The buffer -/

theorem le_nextCapacity (capacity : ℕ) {nextLength : ℕ} {maxSize : Option ℕ}
    (h : exceeds nextLength maxSize = false) :
    nextLength ≤ nextCapacity capacity nextLength maxSize := by
  cases maxSize with
  | none => exact le_max_left _ _
  | some maxSize =>
      rw [exceeds, decide_eq_false_iff_not, not_lt] at h
      exact le_min (le_max_left _ _) h

/-- Growing keeps the bytes in use and makes room. -/
theorem grow_append {done : Bytes} (spare : Bytes) {nextLength : ℕ} {maxSize : Option ℕ}
    (hlength : done.length ≤ nextLength)
    (h : exceeds nextLength maxSize = false) :
    ∃ spare', grow (done ++ spare) done.length nextLength maxSize =
        .ok (done ++ spare') ∧ nextLength ≤ (done ++ spare').length := by
  by_cases hroom : (done ++ spare).length < nextLength
  · have hcapacity := le_nextCapacity (done ++ spare).length h
    set capacity := nextCapacity (done ++ spare).length nextLength maxSize
      with hdef
    refine ⟨List.replicate (capacity - done.length) 0, ?_, ?_⟩
    · rw [grow, if_pos hroom, List.take_left, ← hdef, StreamSource.set,
        if_pos (by rw [List.length_replicate]; omega), write]
      simp
    · rw [List.length_append, List.length_replicate]
      omega
  · refine ⟨spare, ?_, not_lt.1 hroom⟩
    rw [grow, if_neg hroom]

theorem set_append {done spare bytes : Bytes}
    (h : done.length + bytes.length ≤ (done ++ spare).length) :
    set (done ++ spare) bytes done.length =
      .ok (done ++ bytes ++ spare.drop bytes.length) := by
  rw [set, if_pos h, write_append]

section Reading

variable {E T : Type} {deserialize : Bytes → Except E T} {maxSize : Option ℕ}
  {failure : Option ReadError}

/-- The buffer begins with the bytes so far; what is behind them is never
seen. -/
theorem readFirstLoop_append :
    ∀ (chunks : List (Option Chunk)) (done spare : Bytes)
      (lastError : FirstReadError E),
      readFirstLoop deserialize maxSize failure chunks (done ++ spare)
          done.length lastError =
        readPrefixes deserialize maxSize failure chunks done lastError := by
  intro chunks
  induction chunks with
  | nil =>
      intro done spare lastError
      rfl
  | cons chunk rest ih =>
      intro done spare lastError
      cases chunk with
      | none =>
          rw [readFirstLoop, readPrefixes, ih]
      | some chunk =>
          have hnext : done.length + chunk.bytes.length =
              (done ++ chunk.bytes).length := List.length_append.symm
          rw [readFirstLoop, readPrefixes, Chunk.length]
          dsimp only
          rw [hnext]
          cases hlong : exceeds (done ++ chunk.bytes).length maxSize with
          | true => rfl
          | false =>
              rw [if_neg Bool.false_ne_true, if_neg Bool.false_ne_true,
                if_neg Bool.false_ne_true]
              obtain ⟨spare', hgrow, hroom⟩ := grow_append spare
                (hnext ▸ Nat.le_add_right _ _) hlong
              rw [hgrow]
              dsimp only
              rw [set_append (hnext ▸ hroom)]
              dsimp only
              rw [List.take_left]
              cases deserialize (done ++ chunk.bytes) with
              | ok value => rfl
              | error e =>
                  dsimp only
                  rw [ih]

/-- `readFirstDeserializable` reads as without a buffer. -/
theorem readFirstDeserializable_eq (source : StreamSource) :
    readFirstDeserializable deserialize maxSize source =
      readPrefixes deserialize maxSize source.failure source.chunks []
        (.ended "Stream ended before a complete message arrived") :=
  readFirstLoop_append source.chunks [] [] _

/-! ## What is handed on -/

@[simp] theorem bytesRead_chunk (chunk : Option Chunk)
    (trace : List ReadEvent) :
    bytesRead (.chunk chunk :: trace) =
      (chunk.map Chunk.bytes).getD [] ++ bytesRead trace :=
  List.flatMap_cons

@[simp] theorem bytesRead_handed (data : Bytes) (trace : List ReadEvent) :
    bytesRead (.handed data :: trace) = bytesRead trace :=
  List.flatMap_cons

/-- A trace from these bytes on hands on exactly what was read, and ends with
the chunk that crosses the limit. -/
def Exact (maxSize : Option ℕ) (r : Except (FirstReadError E) T) :
    Bytes → List ReadEvent → Prop
  | _, [] => True
  | done, .chunk chunk :: rest =>
      let done' := done ++ (chunk.map Chunk.bytes).getD []
      (exceeds done'.length maxSize = true →
          rest = [] ∧ r = .error (.read (tooLong maxSize))) ∧
        Exact maxSize r done' rest
  | done, .handed data :: rest => data = done ∧ Exact maxSize r done rest

theorem readPrefixes_exact :
    ∀ (chunks : List (Option Chunk)) (done : Bytes)
      (lastError : FirstReadError E), exceeds done.length maxSize = false →
      Exact maxSize
        (readPrefixes deserialize maxSize failure chunks done lastError).result
        done
        (readPrefixes deserialize maxSize failure chunks done lastError).trace
        := by
  intro chunks
  induction chunks with
  | nil =>
      intro done lastError _
      trivial
  | cons chunk rest ih =>
      intro done lastError h
      cases chunk with
      | none =>
          rw [readPrefixes]
          refine ⟨fun hlong => ?_, ?_⟩
          · rw [Option.map_none, Option.getD_none, List.append_nil, h] at hlong
            cases hlong
          · rw [Option.map_none, Option.getD_none, List.append_nil]
            exact ih done lastError h
      | some chunk =>
          rw [readPrefixes]
          cases hlong : exceeds (done ++ chunk.bytes).length maxSize with
          | true => exact ⟨fun _ => ⟨rfl, rfl⟩, trivial⟩
          | false =>
              rw [if_neg Bool.false_ne_true]
              refine ⟨fun h => absurd (hlong.symm.trans h) Bool.false_ne_true,
                rfl, ?_⟩
              cases deserialize (done ++ chunk.bytes) with
              | ok value => trivial
              | error e => exact ih _ _ hlong

theorem Exact.handed {r : Except (FirstReadError E) T} {data : Bytes}
    {after : List ReadEvent} :
    ∀ {before : List ReadEvent} {done : Bytes},
      Exact maxSize r done (before ++ .handed data :: after) →
        data = done ++ bytesRead before := by
  intro before
  induction before with
  | nil =>
      intro done h
      exact h.1.trans (List.append_nil _).symm
  | cons event before ih =>
      intro done h
      cases event with
      | chunk chunk =>
          rw [ih h.2, bytesRead_chunk, List.append_assoc]
      | handed data' =>
          rw [ih h.2, bytesRead_handed]

theorem Exact.exceeded {r : Except (FirstReadError E) T}
    {after : List ReadEvent} :
    ∀ {before : List ReadEvent} {done : Bytes},
      Exact maxSize r done (before ++ after) →
      exceeds done.length maxSize = false →
      exceeds (done ++ bytesRead before).length maxSize = true →
      after = [] ∧ r = .error (.read (tooLong maxSize)) := by
  intro before
  induction before with
  | nil =>
      intro done _ h hlong
      rw [bytesRead, List.flatMap_nil, List.append_nil, h] at hlong
      cases hlong
  | cons event before ih =>
      intro done hexact h hlong
      cases event with
      | chunk chunk =>
          rw [bytesRead_chunk, ← List.append_assoc] at hlong
          cases hnext : exceeds
              (done ++ (chunk.map Chunk.bytes).getD []).length maxSize with
          | true =>
              obtain ⟨hrest, hr⟩ := hexact.1 hnext
              exact ⟨(List.append_eq_nil_iff.1 hrest).2, hr⟩
          | false => exact ih hexact.2 hnext hlong
      | handed data =>
          rw [bytesRead_handed] at hlong
          exact ih hexact.2 h hlong

/-! ## The first message -/

/-- The deserialiser accepts these bytes and no proper prefix of them. -/
structure AcceptsFirst (deserialize : Bytes → Except E T) (m : Bytes)
    (value : T) : Prop where
  accepts : deserialize m = .ok value
  rejects : ∀ p, p <+: m → p ≠ m → ∃ e, deserialize p = .error e

/-- The message is accepted where its last byte was read. -/
theorem readPrefixes_resolves {m : Bytes} {value : T}
    (hm : AcceptsFirst deserialize m value)
    (hsize : exceeds m.length maxSize = false) :
    ∀ (chunks : List (Option Chunk)) (done : Bytes)
      (lastError : FirstReadError E), done ++ content chunks = m →
      chunks.filterMap id ≠ [] →
      (readPrefixes deserialize maxSize failure chunks done lastError).result =
        .ok value := by
  intro chunks
  induction chunks with
  | nil =>
      intro done lastError _ hnil
      exact absurd rfl hnil
  | cons chunk rest ih =>
      intro done lastError hcontent hnil
      cases chunk with
      | none => exact ih done lastError hcontent hnil
      | some chunk =>
          have hsplit : done ++ chunk.bytes ++ content rest = m := by
            rw [← hcontent, List.append_assoc]
            rfl
          have hlong : exceeds (done ++ chunk.bytes).length maxSize =
              false := by
            rw [← Bool.not_eq_true]
            intro hlong
            have hle : (done ++ chunk.bytes).length ≤ m.length := by
              rw [← hsplit]
              exact (List.prefix_append _ _).length_le
            rw [exceeds_mono hle hlong] at hsize
            cases hsize
          rw [readPrefixes, hlong, if_neg Bool.false_ne_true]
          change (match deserialize (done ++ chunk.bytes) with
            | .ok value => (⟨[], .ok value⟩ : FirstRead E T)
            | .error e => readPrefixes deserialize maxSize failure rest
                (done ++ chunk.bytes) (.deserialize e)).result = .ok value
          by_cases hall : done ++ chunk.bytes = m
          · rw [hall, hm.accepts]
          · have hprefix : done ++ chunk.bytes <+: m := ⟨_, hsplit⟩
            obtain ⟨e, he⟩ := hm.rejects _ hprefix hall
            rw [he]
            refine ih _ _ hsplit fun hrest => hall ?_
            rwa [← flatMap_filterMap_bytes, hrest, List.flatMap_nil,
              List.append_nil] at hsplit

end Reading

/-- A message is resolved to however it is cut into one or more chunks, what is
handed on is what was read so far, and crossing the limit rejects at once. -/
theorem readFirstDeserializable_chunking {E T : Type}
    (deserialize : Bytes → Except E T) (maxSize : Option ℕ)
    (source : StreamSource) :
    let r := readFirstDeserializable deserialize maxSize source
    (∀ m value, AcceptsFirst deserialize m value →
        (∀ bound ∈ maxSize, m.length ≤ bound) → content source.chunks = m →
        (∃ chunk, some chunk ∈ source.chunks) → r.result = .ok value) ∧
      (∀ before data after, r.trace = before ++ .handed data :: after →
        data = bytesRead before) ∧
      ∀ bound ∈ maxSize, ∀ before after, r.trace = before ++ after →
        bound < (bytesRead before).length →
          after = [] ∧ r.result = .error (.read (.range
            s!"Stream exceeded maximum allowed size of {bound} bytes")) := by
  have hempty : exceeds ([] : Bytes).length maxSize = false := by
    cases maxSize with
    | none => rfl
    | some bound => exact decide_eq_false (Nat.not_lt_zero bound)
  have hexact := @readPrefixes_exact E T deserialize maxSize source.failure
    source.chunks [] (.ended "Stream ended before a complete message arrived")
    hempty
  rw [← readFirstDeserializable_eq] at hexact
  refine ⟨?_, ?_, ?_⟩
  · intro m value hm hbound hcontent ⟨chunk, hchunk⟩
    have hsize : exceeds m.length maxSize = false := by
      cases maxSize with
      | none => rfl
      | some bound => exact decide_eq_false (not_lt.2 (hbound bound rfl))
    rw [readFirstDeserializable_eq]
    exact readPrefixes_resolves hm hsize _ [] _ hcontent
      (List.ne_nil_of_mem (List.mem_filterMap.2 ⟨_, hchunk, rfl⟩))
  · intro before data after htrace
    rw [htrace] at hexact
    exact hexact.handed
  · intro bound hbound before after htrace hlong
    obtain rfl : maxSize = some bound := hbound
    rw [htrace] at hexact
    exact hexact.exceeded hempty (decide_eq_true hlong)

/-- Two bytes in three chunks, one of them empty. -/
theorem readFirstDeserializable_chunking_two :
    (readFirstDeserializable (E := Unit) (T := Unit)
      (fun data => if data = [1, 2] then .ok () else .error ()) (some 2)
      ⟨[some (.uint8Array [1]), some (.uint8Array []),
        some (.bufferList [[2]])], none⟩).result = .ok () := by
  refine (readFirstDeserializable_chunking _ _ _).1 [1, 2] ()
    ⟨rfl, fun p hp hne => ⟨(), if_neg hne⟩⟩ ?_ rfl ⟨_, List.mem_cons_self⟩
  intro bound hbound
  exact (Option.some.inj hbound).le

/-- The empty message, cut into no chunks, is never handed on. -/
theorem readFirstDeserializable_no_chunks :
    AcceptsFirst (E := Unit) (fun _ => .ok ()) [] () ∧
      content [] = [] ∧
      (readFirstDeserializable (E := Unit) (T := Unit) (fun _ => .ok ()) none
          ⟨[], none⟩).result =
        .error (.ended "Stream ended before a complete message arrived") := by
  refine ⟨⟨rfl, fun p hp hne => absurd (List.prefix_nil.1 hp) hne⟩, rfl, rfl⟩

end StreamSource

end Collabswarm
