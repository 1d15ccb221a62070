import Collabswarm.Support.Bitwise32
import Collabswarm.Support.JsString
import Collabswarm.Wire.StreamChunks

/-!
# Messages behind a document path

A message of the shared protocols is the length of the document path in four
bytes, the path in UTF-8, and the body.  The receiver decodes the path with a
decoder that drops a leading byte-order mark and replaces what is not UTF-8, so
a path that begins with such a mark is not read back, and a path that was no
UTF-8 is not what was sent.
-/

namespace Collabswarm.SharedProtocol

open Bitwise32 JsString StreamSource

/-- Why a message is dropped. -/
inductive DropReason where
  | requestTooLarge
  | readFailed
  | tooShort
  | invalidPathLength
  | noDocumentRegistered
  deriving DecidableEq

/-- The outcome of parsing a header. -/
inductive PathPrefixedHeader (TDocument : Type) where
  | ok (documentPath : JsString) (doc : TDocument) (payload : Bytes)
  | drop (reason : DropReason)

/-- The length in the first four bytes. -/
def pathLengthOf (assembled : Bytes) : ℕ :=
  toUint32 (bitOr (bitOr (bitOr
    (shiftLeft ((assembled.getD 0 0).toNat : ℤ) 24)
    (shiftLeft ((assembled.getD 1 0).toNat : ℤ) 16))
    (shiftLeft ((assembled.getD 2 0).toNat : ℤ) 8))
    ((assembled.getD 3 0).toNat : ℤ))

/-- The bytes of the path. -/
def pathBytesOf (assembled : Bytes) : Bytes :=
  (assembled.drop 4).take (pathLengthOf assembled)

/-- `readPathPrefixedProtocolHeader`, without its warnings. -/
def readPathPrefixedProtocolHeader {TDocument : Type} (source : StreamSource)
    (registry : JsString → Option TDocument) (maxRequestSize maxPathLength : ℕ) :
    PathPrefixedHeader TDocument :=
  match readUint8Iterable source (some maxRequestSize) with
  | .error (.range _) => .drop .requestTooLarge
  | .error .other => .drop .readFailed
  | .ok assembled =>
      if assembled.length < 4 then .drop .tooShort
      else
        let pathLength := pathLengthOf assembled
        if pathLength = 0 ∨ maxPathLength < pathLength ∨
            assembled.length < pathLength + 4 then
          .drop .invalidPathLength
        else
          let documentPath := ofChars (textDecode (pathBytesOf assembled))
          let payload := assembled.drop (4 + pathLength)
          match registry documentPath with
          | none => .drop .noDocumentRegistered
          | some doc => .ok documentPath doc payload

/-! ## Frames -/

/-- `MAX_DOCUMENT_PATH_LENGTH`. -/
def maxDocumentPathLength : ℕ := 4096

/-- The four bytes of the length of a path. -/
def pathHeader (length : ℕ) : Bytes :=
  [UInt8.ofNat (bitAnd (shiftRight length 24) 255).toNat,
    UInt8.ofNat (bitAnd (shiftRight length 16) 255).toNat,
    UInt8.ofNat (bitAnd (shiftRight length 8) 255).toNat,
    UInt8.ofNat (bitAnd length 255).toNat]

/-- The payload that `_distributeBeeKEMPathUpdate` sends; `none` where the
length of the path is refused. -/
def pathUpdatePayload (documentPath : JsString) (serialized : Bytes) :
    Option Bytes :=
  let pathBytes := textEncode documentPath
  if pathBytes.length = 0 ∨ maxDocumentPathLength < pathBytes.length then none
  else some (pathHeader pathBytes.length ++ pathBytes ++ serialized)

/-- A frame: the length of the path in four bytes, the path and the body. -/
structure IsFrame (documentPath : JsString) (body frame : Bytes) : Prop where
  fits : (textEncode documentPath).length < 256 ^ 4
  eq : frame = Bytes.lengthPrefixed (textEncode documentPath) ++ body

/-! ## The length of the path -/

theorem bigEndian_four (n : ℕ) :
    Bytes.bigEndian 4 n =
      [UInt8.ofNat (n / 256 ^ 3), UInt8.ofNat (n / 256 ^ 2),
        UInt8.ofNat (n / 256), UInt8.ofNat n] := by
  simp [Bytes.bigEndian, Nat.div_div_eq_div_mul]

/-- The length is read as a big-endian number. -/
theorem pathLengthOf_cons (a b c d : UInt8) (rest : Bytes) :
    pathLengthOf (a :: b :: c :: d :: rest) =
      a.toNat * 2 ^ 24 + b.toNat * 2 ^ 16 + c.toNat * 2 ^ 8 + d.toNat := by
  have ha := a.toNat_lt
  have hb := b.toNat_lt
  have hc := c.toNat_lt
  have hd := d.toNat_lt
  have hshift : ∀ (u : UInt8) (k : ℕ), k ≤ 24 →
      toUint32 (shiftLeft (u.toNat : ℤ) k) = u.toNat * 2 ^ k := by
    intro u k hk
    have hu := u.toNat_lt
    have hpow : 2 ^ k ≤ 2 ^ 24 := Nat.pow_le_pow_right (by decide) hk
    exact toUint32_shiftLeft_natCast (by omega) (by nlinarith)
  have ha' := hshift a 24 le_rfl
  have hb' := hshift b 16 (by decide)
  have hc' := hshift c 8 (by decide)
  rw [Nat.cast_ofNat] at ha' hb' hc'
  have hlow : c.toNat * 2 ^ 8 ||| d.toNat = c.toNat * 2 ^ 8 + d.toNat := by
    rw [mul_comm, Nat.two_pow_add_eq_or_of_lt (by omega)]
  have hhigh : a.toNat * 2 ^ 24 ||| b.toNat * 2 ^ 16 =
      a.toNat * 2 ^ 24 + b.toNat * 2 ^ 16 := by
    rw [mul_comm a.toNat, Nat.two_pow_add_eq_or_of_lt (by omega)]
  have hall : (a.toNat * 2 ^ 24 + b.toNat * 2 ^ 16) |||
      (c.toNat * 2 ^ 8 + d.toNat) =
        a.toNat * 2 ^ 24 + b.toNat * 2 ^ 16 + (c.toNat * 2 ^ 8 + d.toNat) := by
    have hfactor : a.toNat * 2 ^ 24 + b.toNat * 2 ^ 16 =
        2 ^ 16 * (a.toNat * 2 ^ 8 + b.toNat) := by ring
    rw [hfactor, Nat.two_pow_add_eq_or_of_lt (by omega)]
  simp only [pathLengthOf, List.getD_cons_zero, List.getD_cons_succ, toUint32_or,
    ha', hb', hc', toUint32_natCast (show d.toNat < 2 ^ 32 by omega)]
  rw [Nat.or_assoc, hlow, hhigh, hall, ← Nat.add_assoc]

theorem pathLengthOf_bigEndian {n : ℕ} (hn : n < 256 ^ 4) (rest : Bytes) :
    pathLengthOf (Bytes.bigEndian 4 n ++ rest) = n := by
  rw [bigEndian_four]
  refine (pathLengthOf_cons _ _ _ _ rest).trans ?_
  simp only [UInt8.toNat_ofNat']
  omega

/-- The first four bytes are those of the length. -/
theorem take_four_eq {assembled : Bytes} (h : 4 ≤ assembled.length) :
    assembled.take 4 = Bytes.bigEndian 4 (pathLengthOf assembled) := by
  match assembled, h with
  | a :: b :: c :: d :: rest, _ =>
      have ha := a.toNat_lt
      have hb := b.toNat_lt
      have hc := c.toNat_lt
      have hd := d.toNat_lt
      have hbyte : ∀ (u : UInt8) (m : ℕ), m % 256 = u.toNat →
          u = UInt8.ofNat m := by
        intro u m hm
        rw [← UInt8.toNat_inj, UInt8.toNat_ofNat']
        exact hm.symm
      rw [pathLengthOf_cons, bigEndian_four]
      simp only [List.take_succ_cons, List.take_zero]
      rw [← hbyte a _ (by omega), ← hbyte b _ (by omega), ← hbyte c _ (by omega),
        ← hbyte d _ (by omega)]

theorem pathLengthOf_lt {assembled : Bytes} (h : 4 ≤ assembled.length) :
    pathLengthOf assembled < 256 ^ 4 := by
  match assembled, h with
  | a :: b :: c :: d :: rest, _ =>
      have ha := a.toNat_lt
      have hb := b.toNat_lt
      have hc := c.toNat_lt
      have hd := d.toNat_lt
      rw [pathLengthOf_cons]
      omega

/-- The header that is sent holds the length as a big-endian number. -/
theorem pathHeader_eq {n : ℕ} (hn : n < 2 ^ 31) :
    pathHeader n = Bytes.bigEndian 4 n := by
  have hbyte : ∀ m : ℕ, m < 2 ^ 31 →
      UInt8.ofNat (bitAnd (m : ℤ) 255).toNat = UInt8.ofNat m := by
    intro m hm
    have hand := and_natCast (m := m) (n := 255) hm
    rw [Nat.cast_ofNat] at hand
    rw [hand, Int.toNat_natCast, ← UInt8.toNat_inj, UInt8.toNat_ofNat',
      UInt8.toNat_ofNat', show m &&& 255 = m % 256 from
        Nat.and_two_pow_sub_one_eq_mod m 8, Nat.mod_mod]
  have hshift : ∀ k : ℕ, k < 32 →
      shiftRight (n : ℤ) k = ((n / 2 ^ k : ℕ) : ℤ) := by
    intro k hk
    rw [shiftRight_natCast hn hk, Nat.shiftRight_eq_div_pow]
  have h24 := hshift 24 (by decide)
  have h16 := hshift 16 (by decide)
  have h8 := hshift 8 (by decide)
  rw [Nat.cast_ofNat] at h24 h16 h8
  rw [pathHeader, bigEndian_four, h24, h16, h8, hbyte _ (by omega),
    hbyte _ (by omega), hbyte _ (by omega), hbyte _ (by omega)]
  norm_num

/-- What is sent is a frame. -/
theorem isFrame_pathUpdatePayload {documentPath : JsString}
    {serialized payload : Bytes}
    (h : pathUpdatePayload documentPath serialized = some payload) :
    IsFrame documentPath serialized payload := by
  simp only [pathUpdatePayload] at h
  split at h
  · cases h
  · rename_i hlength
    rw [maxDocumentPathLength] at hlength
    rw [Option.some.injEq] at h
    refine ⟨by omega, ?_⟩
    rw [← h, pathHeader_eq (by omega), Bytes.lengthPrefixed]

/-! ## Reading frames -/

section Reading

variable {TDocument : Type} {source : StreamSource}
  {registry : JsString → Option TDocument} {maxRequestSize maxPathLength : ℕ}

/-- The message passes every check before the registry. -/
structure Admissible (source : StreamSource)
    (maxRequestSize maxPathLength : ℕ) : Prop where
  complete : source.failure = none
  size : (content source.chunks).length ≤ maxRequestSize
  header : 4 ≤ (content source.chunks).length
  positive : pathLengthOf (content source.chunks) ≠ 0
  bounded : pathLengthOf (content source.chunks) ≤ maxPathLength
  inside : pathLengthOf (content source.chunks) + 4 ≤
    (content source.chunks).length

theorem exceeds_eq_false {m n : ℕ} : exceeds m (some n) = false ↔ m ≤ n := by
  rw [exceeds, decide_eq_false_iff_not, not_lt]

/-- The document a message is for, and what is found at it. -/
def decodedPath (source : StreamSource) : JsString :=
  ofChars (textDecode (pathBytesOf (content source.chunks)))

theorem read_of_admissible
    (h : Admissible source maxRequestSize maxPathLength) :
    readPathPrefixedProtocolHeader source registry maxRequestSize maxPathLength =
      match registry (decodedPath source) with
      | none => .drop .noDocumentRegistered
      | some doc => .ok (decodedPath source) doc
          ((content source.chunks).drop
            (4 + pathLengthOf (content source.chunks))) := by
  have hheader := h.header
  have hpositive := h.positive
  have hbounded := h.bounded
  have hinside := h.inside
  rw [readPathPrefixedProtocolHeader, readUint8Iterable_eq,
    exceeds_eq_false.2 h.size, if_neg Bool.false_ne_true, h.complete]
  dsimp only
  rw [if_neg (by omega), if_neg (by omega)]
  rfl

/-- Every other message is dropped. -/
theorem read_of_not_admissible
    (h : ¬ Admissible source maxRequestSize maxPathLength) :
    ∃ reason, readPathPrefixedProtocolHeader source registry maxRequestSize
      maxPathLength = .drop reason := by
  rw [readPathPrefixedProtocolHeader, readUint8Iterable_eq]
  cases hsize : exceeds (content source.chunks).length (some maxRequestSize) with
  | true => exact ⟨_, rfl⟩
  | false =>
      rw [if_neg Bool.false_ne_true]
      cases hfailure : source.failure with
      | some e =>
          cases e with
          | range message => exact ⟨_, rfl⟩
          | other => exact ⟨_, rfl⟩
      | none =>
          dsimp only
          split
          · exact ⟨_, rfl⟩
          · split
            · exact ⟨_, rfl⟩
            · rename_i hheader hlength
              exact absurd ⟨hfailure, exceeds_eq_false.1 hsize, by omega,
                by omega, by omega, by omega⟩ h

theorem IsFrame.length_eq {documentPath : JsString} {body frame : Bytes}
    (h : IsFrame documentPath body frame) :
    pathLengthOf frame = (textEncode documentPath).length := by
  rw [h.eq, Bytes.lengthPrefixed, List.append_assoc]
  exact pathLengthOf_bigEndian h.fits _

theorem IsFrame.parts {documentPath : JsString} {body frame : Bytes}
    (h : IsFrame documentPath body frame) :
    pathBytesOf frame = textEncode documentPath ∧
      frame.drop (4 + pathLengthOf frame) = body := by
  have hlength : (Bytes.bigEndian 4 (textEncode documentPath).length).length =
      4 := Bytes.length_bigEndian _ _
  rw [pathBytesOf, h.length_eq, h.eq, Bytes.lengthPrefixed, List.append_assoc]
  constructor
  · rw [List.drop_left' hlength, List.take_left' rfl]
  · rw [← List.drop_drop, List.drop_left' hlength, List.drop_left' rfl]

/-- A frame of a path that arrives within the limits, at a peer that has the
document. -/
structure Arrives (documentPath : JsString) (body : Bytes)
    (source : StreamSource) (registry : JsString → Option TDocument)
    (maxRequestSize maxPathLength : ℕ) (doc : TDocument) : Prop where
  wellFormed : WellFormed documentPath
  positive : 1 ≤ (textEncode documentPath).length
  bounded : (textEncode documentPath).length ≤ maxPathLength
  frame : IsFrame documentPath body (content source.chunks)
  complete : source.failure = none
  size : (content source.chunks).length ≤ maxRequestSize
  registered : registry documentPath = some doc

theorem Arrives.admissible {documentPath : JsString} {body : Bytes}
    {doc : TDocument} (h : Arrives documentPath body source registry
      maxRequestSize maxPathLength doc) :
    Admissible source maxRequestSize maxPathLength := by
  have hlength := h.frame.length_eq
  have hpositive := h.positive
  have hsize := congrArg List.length h.frame.eq
  rw [Bytes.lengthPrefixed, List.length_append, List.length_append,
    Bytes.length_bigEndian] at hsize
  exact ⟨h.complete, h.size, by omega, by omega, hlength ▸ h.bounded, by omega⟩

/-- The path that is decoded is the one that was sent exactly if it does not
begin with a byte-order mark. -/
theorem ofChars_textDecode_iff {documentPath : JsString}
    (hwell : WellFormed documentPath) :
    ofChars (textDecode (textEncode documentPath)) = documentPath ↔
      (scalars documentPath).head? ≠ some '\uFEFF' := by
  constructor
  · intro h hhead
    obtain ⟨cs, hcs⟩ := List.head?_eq_some_iff.1 hhead
    have hback := ofChars_scalars hwell
    rw [textEncode, hcs, textDecode_utf8_cons_bom] at h
    rw [hcs, ← h] at hback
    have hsame := congrArg scalars hback
    rw [scalars_ofChars, scalars_ofChars] at hsame
    exact List.cons_ne_self _ _ hsame
  · intro h
    rw [textEncode, textDecode_utf8 h, ofChars_scalars hwell]

/-- A frame is read back exactly if its path does not begin with a byte-order
mark. -/
theorem readsBack_iff {documentPath : JsString} {body : Bytes}
    {doc : TDocument} (h : Arrives documentPath body source registry
      maxRequestSize maxPathLength doc) :
    readPathPrefixedProtocolHeader source registry maxRequestSize
        maxPathLength = .ok documentPath doc body ↔
      (scalars documentPath).head? ≠ some '\uFEFF' := by
  obtain ⟨hpath, hbody⟩ := h.frame.parts
  rw [← ofChars_textDecode_iff h.wellFormed, read_of_admissible h.admissible,
    decodedPath, hpath, hbody]
  constructor
  · intro heq
    split at heq
    · cases heq
    · simp only [PathPrefixedHeader.ok.injEq] at heq
      exact heq.1
  · intro heq
    rw [heq, h.registered]

/-- A message is dropped, or what is returned is what was framed. -/
def DropsOrUnframes (source : StreamSource)
    (registry : JsString → Option TDocument)
    (maxRequestSize maxPathLength : ℕ) : Prop :=
  match readPathPrefixedProtocolHeader source registry maxRequestSize
    maxPathLength with
  | .drop _ => True
  | .ok documentPath _ payload =>
      IsFrame documentPath payload (content source.chunks)

/-- A byte string is read as a frame exactly if its path is UTF-8 without a
leading byte-order mark. -/
theorem isFrame_iff {documentPath : JsString}
    (h : Admissible source maxRequestSize maxPathLength)
    (hpath : documentPath = decodedPath source) :
    IsFrame documentPath ((content source.chunks).drop
        (4 + pathLengthOf (content source.chunks))) (content source.chunks) ↔
      ∃ cs, pathBytesOf (content source.chunks) = utf8 cs ∧
        cs.head? ≠ some '\uFEFF' := by
  have hheader := h.header
  have hinside := h.inside
  have hencode : textEncode documentPath =
      utf8 (textDecode (pathBytesOf (content source.chunks))) := by
    rw [hpath, decodedPath, textEncode, scalars_ofChars]
  have hlength : (pathBytesOf (content source.chunks)).length =
      pathLengthOf (content source.chunks) := by
    rw [pathBytesOf, List.length_take, List.length_drop]
    omega
  have hsplit : content source.chunks =
      Bytes.bigEndian 4 (pathLengthOf (content source.chunks)) ++
        pathBytesOf (content source.chunks) ++
          (content source.chunks).drop
            (4 + pathLengthOf (content source.chunks)) := by
    rw [← take_four_eq hheader, pathBytesOf, List.append_assoc,
      ← List.drop_drop, List.take_append_drop, List.take_append_drop]
  rw [← utf8_textDecode_iff, ← hencode]
  constructor
  · intro hframe
    exact hframe.parts.1.symm
  · intro heq
    refine ⟨?_, ?_⟩
    · rw [heq, hlength]
      exact pathLengthOf_lt hheader
    · rw [Bytes.lengthPrefixed, heq, hlength, ← hsplit]

theorem dropsOrUnframes_iff :
    DropsOrUnframes source registry maxRequestSize maxPathLength ↔
      (Admissible source maxRequestSize maxPathLength →
        registry (decodedPath source) ≠ none →
        ∃ cs, pathBytesOf (content source.chunks) = utf8 cs ∧
          cs.head? ≠ some '\uFEFF') := by
  rw [DropsOrUnframes]
  by_cases h : Admissible source maxRequestSize maxPathLength
  · rw [read_of_admissible h]
    cases hdoc : registry (decodedPath source) with
    | none => simp
    | some doc => simpa [h] using isFrame_iff h rfl
  · obtain ⟨reason, hreason⟩ : ∃ reason, readPathPrefixedProtocolHeader source
        registry maxRequestSize maxPathLength = .drop reason :=
      read_of_not_admissible h
    rw [hreason]
    exact iff_of_true trivial fun hadmissible => absurd hadmissible h

end Reading

/-- Frames are read back, and what is read was framed, exactly if paths are
UTF-8 without a leading byte-order mark. -/
theorem framing_roundTrip_iff {TDocument : Type} (source : StreamSource)
    (registry : JsString → Option TDocument)
    (maxRequestSize maxPathLength : ℕ) :
    (∀ documentPath body doc,
      Arrives documentPath body source registry maxRequestSize maxPathLength
        doc →
      (readPathPrefixedProtocolHeader source registry maxRequestSize
          maxPathLength = .ok documentPath doc body ↔
        (scalars documentPath).head? ≠ some '\uFEFF')) ∧
    (DropsOrUnframes source registry maxRequestSize maxPathLength ↔
      (Admissible source maxRequestSize maxPathLength →
        registry (decodedPath source) ≠ none →
        ∃ cs, pathBytesOf (content source.chunks) = utf8 cs ∧
          cs.head? ≠ some '\uFEFF')) :=
  ⟨fun _ _ _ h => readsBack_iff h, dropsOrUnframes_iff⟩

/-- A registry with one document. -/
def only (documentPath : JsString) : JsString → Option Unit :=
  fun path => if path = documentPath then some () else none

/-- A frame in two chunks. -/
theorem framing_roundTrip_chunks :
    readPathPrefixedProtocolHeader
        ⟨[some (.uint8Array [0, 0, 0]), none,
          some (.uint8ArrayList [[1], [0x61, 7]])], none⟩
        (only (ofString "a")) 100 4096 = .ok (ofString "a") () [7] ↔
      (scalars (ofString "a")).head? ≠ some '\uFEFF' :=
  (framing_roundTrip_iff _ _ _ _).1 _ _ _
    ⟨by decide, by decide, by decide, ⟨by decide, by decide⟩, rfl, by decide,
      rfl⟩

/-- A path that begins with a byte-order mark is not read back, and a message
whose path is no UTF-8 reaches a document without being a frame of its path. -/
theorem framing_roundTrip_fails :
    (¬ ∀ source registry maxRequestSize maxPathLength documentPath body,
      ∀ doc : Unit, Arrives documentPath body source registry maxRequestSize
        maxPathLength doc →
      readPathPrefixedProtocolHeader source registry maxRequestSize
        maxPathLength = .ok documentPath doc body) ∧
    ¬ ∀ source (registry : JsString → Option Unit) maxRequestSize
      maxPathLength,
      DropsOrUnframes source registry maxRequestSize maxPathLength := by
  constructor
  · intro h
    have harrives : Arrives [0xFEFF, 0x61] [7]
        ⟨[some (.uint8Array [0, 0, 0, 4, 0xEF, 0xBB, 0xBF, 0x61, 7])], none⟩
        (only [0xFEFF, 0x61]) 100 4096 () :=
      ⟨by decide, by decide, by decide, ⟨by decide, by decide⟩, rfl, by decide,
        rfl⟩
    exact (readsBack_iff harrives).1 (h _ _ _ _ _ _ _ harrives) (by decide)
  · intro h
    have hreads := h ⟨[some (.uint8Array [0, 0, 0, 1, 0xFF])], none⟩
      (only [0xFFFD]) 100 4096
    have hframe : IsFrame [0xFFFD] [] [0, 0, 0, 1, 0xFF] := hreads
    exact absurd hframe.eq (by decide)

end Collabswarm.SharedProtocol
