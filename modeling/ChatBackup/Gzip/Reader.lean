import ChatBackup.Gzip.Inflate
import ChatBackup.Gzip.Member

/-!
# Decompressing on the way

`GzipReader` is a source that decompresses what it reads from another source. It takes one member
and leaves what follows it unread. More of the compressed data is fetched only when all that is
there has been used up.

Data that breaks the rules is a failure, and what the same read had brought out before is lost with
it. The check and the length in the trailer are compared after all data was handed out.
-/

namespace ChatBackup

/-- The compressed data of a member on its way. -/
structure GzipBody where
  inflater : Inflater := {}
  /-- How many of the bytes put out were handed out. -/
  given : Nat := 0
  /-- The check of the bytes handed out. -/
  check : Crc32 := .start
  /-- Whether decompression has stopped for want of input. -/
  starved : Bool := true

/-- How far a member has been read. -/
inductive GzipStage where
  /-- Inside the compressed data. -/
  | body (body : GzipBody)
  /-- Inside the trailer, with the bytes of it that are there. -/
  | trailer (got : Bytes) (body : GzipBody)
  /-- The header could not be read, which is still to be told. -/
  | refused (failure : Failure)
  /-- The data breaks the rules. -/
  | broken
  /-- Nothing comes any more. -/
  | ended

/-- A source that decompresses on the way from another source. -/
structure GzipReader (σ : Type) where
  /-- The source of the compressed data. -/
  input : Buffered σ
  stage : GzipStage

namespace GzipBody

/-- Whether all the input there is has been used up. -/
def isIdle (b : GzipBody) : Bool := b.starved || !b.inflater.bits.holdByte

/-- Whether bytes wait to be handed out. -/
def isWaiting (b : GzipBody) : Bool := b.given < b.inflater.out.size

/-- At most `n` of the bytes that wait to be handed out. -/
def piece (b : GzipBody) (n : Nat) : Bytes :=
  (b.inflater.out.extract b.given (b.given + n)).toList

/-- Hands out at most `n` bytes of those that wait. -/
def give (b : GzipBody) (n : Nat) : Bytes × GzipBody :=
  let piece := b.piece n
  (piece, { b with given := b.given + piece.length, check := b.check.feed piece })

/-- Takes in more input. -/
def feed (b : GzipBody) (input : Bytes) : GzipBody :=
  { b with inflater := b.inflater.feed input, starved := b.starved && input.isEmpty }

/-- Decompresses until the output has filled a window. -/
def fillWindow (b : GzipBody) : GzipBody × InflateHalt :=
  match b.inflater.advance (Inflater.window - b.given % Inflater.window) with
  | (inflater, halt) => ({ b with inflater, starved := halt = .starved }, halt)

/-- Decompresses and hands out at most `n` bytes, with a pause wherever a window is full. After a
pause it goes on only while there is input, or if no more will come (`atEnd`). Each round hands
out a byte, so `fuel > n` always suffices. -/
def decompress (atEnd : Bool) : Nat → GzipBody → Nat → List Bytes × GzipBody × InflateHalt
  | 0, b, _ => ([], b, .full)
  | fuel + 1, b, n =>
    match b.fillWindow with
    | (b, halt) =>
      match b.give n with
      | (piece, b) =>
        let left := n - piece.length
        if halt = .full && left ≠ 0 && (atEnd || b.inflater.bits.holdByte) then
          match decompress atEnd fuel b left with
          | (pieces, r) => (piece :: pieces, r)
        else ([piece], b, halt)

/-- The input after the last block that was fetched with it. -/
def leftover (b : GzipBody) : Bytes :=
  Bits.toBytes (b.inflater.bits.drop (b.inflater.bits.length % 8))

/-- The trailer that the bytes handed out call for. -/
def trailer (b : GzipBody) : Bytes := Gzip.trailer b.check.value b.given

end GzipBody

namespace GzipReader

variable {σ : Type} [Source σ]

/-- How much compressed data is fetched at a time. -/
def fetchLength : Nat := 32768

/-- A reader that has taken the header. -/
def start (inner : σ) : GzipReader σ :=
  match Gzip.readHeader ({ inner, capacity := fetchLength } : Buffered σ) with
  | (.ok (), input) => { input, stage := .body {} }
  | (.error e, input) => { input, stage := .refused e }

/-- Reads the rest of the trailer and compares it. -/
def readTrailer (input : Buffered σ) (got : Bytes) (b : GzipBody) :
    Outcome Bytes × GzipReader σ :=
  let more := Source.gather input (Gzip.trailerLength - got.length)
  let got := got ++ more.got
  match more.failure with
  | some e => (.failed e, ⟨more.source, .trailer got b⟩)
  | none =>
    if got.length < Gzip.trailerLength then (.failed .gzipCut, ⟨more.source, .trailer got b⟩)
    else if got = b.trailer then (.done [], ⟨more.source, .ended⟩)
    else (.failed .gzipChecksum, ⟨more.source, .ended⟩)

/-- Fetches input if there is none left, and tells whether the input has ended. -/
def fetch (input : Buffered σ) (b : GzipBody) : Outcome Bool × Buffered σ × GzipBody :=
  if b.isIdle then
    match input.fill with
    | (.done (), input) =>
      (.done input.buffer.isEmpty, { input with buffer := [] }, b.feed input.buffer)
    | (.interrupted, input) => (.interrupted, input, b)
    | (.failed e, input) => (.failed e, input, b)
  else (.done false, input, b)

/-- Reads at most `n > 0` bytes of the data. Input that brings nothing out is followed by more;
each round fetches some, so more rounds than the input has turns always suffice. -/
def readBody : Nat → Buffered σ → GzipBody → Nat → Outcome Bytes × GzipReader σ
  | 0, input, b, _ => (.done [], ⟨input, .body b⟩)
  | fuel + 1, input, b, n =>
    match fetch input b with
    | (.interrupted, input, b) => (.interrupted, ⟨input, .body b⟩)
    | (.failed e, input, b) => (.failed e, ⟨input, .body b⟩)
    | (.done atEnd, input, b) =>
      if b.isWaiting then
        match b.give n with
        | (piece, b) => (.done piece, ⟨input, .body b⟩)
      else
        match b.decompress atEnd (n + 1) n with
        -- what the same read had brought out before is lost
        | (_, _, .corrupt) => (.failed .deflateCorrupt, ⟨input, .broken⟩)
        | (pieces, b, halt) =>
          let got := pieces.flatten
          if !got.isEmpty then (.done got, ⟨input, .body b⟩)
          else if halt = .finished then
            -- the trailer begins with what was fetched behind the last block
            readTrailer { input with buffer := b.leftover ++ input.buffer } [] b
          else if atEnd then (.failed .deflateCut, ⟨input, .body b⟩)
          else readBody fuel input b n

/-- One read. -/
def readOnce (r : GzipReader σ) (n : Nat) : Outcome Bytes × GzipReader σ :=
  if n = 0 then (.done [], r)
  else
    match r.stage with
    | .body b => readBody (Source.turns r.input + 2) r.input b n
    | .trailer got b => readTrailer r.input got b
    | .refused e => (.failed e, { r with stage := .ended })
    | .broken => (.failed .deflateCorrupt, r)
    | .ended => (.done [], r)

/-! ## Bounds that make it a source -/

/-- The most bytes that one item of compressed data stands for. -/
def longestCopy : Nat := 258

/-- The bytes that wait inside an inflater for room. -/
def waiting : InflatePhase → Nat
  | .literal _ _ => 1
  | .copy _ more _ => more + 1
  | _ => 0

theorem length_give_le (b : GzipBody) (n : Nat) : (b.give n).1.length ≤ n := by
  simp only [GzipBody.give, GzipBody.piece, Array.length_toList, Array.size_extract]
  omega

theorem length_decompress_le (atEnd : Bool) : ∀ (fuel : Nat) (b : GzipBody) (n : Nat),
    (b.decompress atEnd fuel n).1.flatten.length ≤ n
  | 0, _, _ => by simp [GzipBody.decompress]
  | fuel + 1, b, n => by
    unfold GzipBody.decompress
    have h := length_give_le b.fillWindow.1 n
    simp only
    split
    · have := length_decompress_le atEnd fuel (b.fillWindow.1.give n).2
        (n - (b.fillWindow.1.give n).1.length)
      simp only [List.flatten_cons, List.length_append]
      omega
    · simpa using h

theorem length_readTrailer (input : Buffered σ) (got : Bytes) (b : GzipBody) (d : Bytes)
    (h : (readTrailer input got b).1 = .done d) : d = [] := by
  unfold readTrailer at h
  simp only at h
  split at h
  · cases h
  · split at h
    · cases h
    · split at h <;> cases h
      rfl

theorem length_readBody_le : ∀ (fuel : Nat) (input : Buffered σ) (b : GzipBody) (n : Nat)
    (d : Bytes), (readBody fuel input b n).1 = .done d → d.length ≤ n
  | 0, _, _, _, d, h => by cases h; simp
  | fuel + 1, input, b, n, d, h => by
    unfold readBody at h
    split at h
    · cases h
    · cases h
    · rename_i atEnd input b _
      split at h
      · cases h; exact length_give_le b n
      · split at h
        · cases h
        · rename_i pieces b' halt _ hd
          have hle := length_decompress_le atEnd (n + 1) b n
          simp only at h
          split at h
          · cases h; simpa [hd] using hle
          · split at h
            · simp [length_readTrailer _ _ _ _ h]
            · split at h
              · cases h
              · exact length_readBody_le fuel _ _ _ _ h

instance : Source (GzipReader σ) where
  read := readOnce
  turns r :=
    match r.stage with
    | .body b =>
      (b.inflater.out.size - b.given) + waiting b.inflater.phase
        + longestCopy * (b.inflater.bits.length + 8 * Source.turns r.input)
    | _ => 0
  read_le r n d h := by
    unfold readOnce at h
    split at h
    · cases h; simp
    · split at h
      · exact length_readBody_le _ _ _ _ _ h
      · simp [length_readTrailer _ _ _ _ h]
      · cases h
      · cases h
      · cases h; simp

end GzipReader
end ChatBackup
