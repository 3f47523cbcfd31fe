import ChatBackup.Channel.Sink
import ChatBackup.Gzip.Coder
import ChatBackup.Padding

/-!
# Compressing on the way

`GzipWriter` is a sink that compresses what is written to it into one gzip member, in whatever way a
`Coder` does. When it is finished zeros follow the member as the padding policy asks, so that they
pass through the next stages like everything else.
-/

namespace ChatBackup

/-- A sink that compresses on the way to another sink. -/
structure GzipWriter (C : Coder) (σ : Type) where
  /-- The sink for the compressed data, which counts it. -/
  inner : Counted σ
  policy : PaddingPolicy
  coder : C.State
  /-- Compressed bytes that wait to be sent. -/
  queue : Bytes := []
  /-- What of the header has not been sent yet. -/
  header : Bytes
  /-- The check of the data taken. -/
  check : Crc32 := .start
  /-- How many bytes of data were taken. -/
  plaintextLength : Nat := 0

namespace GzipWriter

variable {C : Coder} {σ : Type}

/-- The most bytes that wait to be sent. -/
def queueLength : Nat := 32768

/-- A writer with nothing written yet. -/
def start (C : Coder) (inner : σ) (level : Gzip.Level) (policy : PaddingPolicy) :
    GzipWriter C σ where
  inner := { inner }
  policy
  coder := C.start level
  header := Gzip.header level

/-- Hands data to the coder and makes wait what it puts out. -/
def code (w : GzipWriter C σ) (b : Bytes) : GzipWriter C σ × Nat :=
  let c := C.take w.coder queueLength b
  ({ w with
      coder := c.state
      queue := c.out
      check := w.check.feed (b.take c.taken)
      plaintextLength := w.plaintextLength + c.taken }, c.taken)

/-- Lets the coder close a segment. -/
def pause (w : GzipWriter C σ) : GzipWriter C σ :=
  let (coder, out) := C.pause w.coder (queueLength - w.queue.length)
  { w with coder, queue := w.queue ++ out }

/-- The bytes that are still to come if no more data does. -/
def ending (w : GzipWriter C σ) : Bytes :=
  w.header ++ (w.queue ++ C.ending w.coder) ++ Gzip.trailer w.check.value w.plaintextLength

variable [Sink σ]

/-- Sends bytes until none is left, and tells those that are left if it has to stop. Each round
sends a byte at least, so `fuel ≥ b.length` always suffices. -/
def send : Nat → σ → Bytes → Outcome Unit × σ × Bytes
  | 0, s, b => (.done (), s, b)
  | fuel + 1, s, b =>
    if b.isEmpty then (.done (), s, b)
    else
      match Sink.write s b with
      | (.done 0, s) => (.failed .nothingWritten, s, b)
      | (.done n, s) => send fuel s (b.drop n)
      | (.interrupted, s) => (.interrupted, s, b)
      | (.failed e, s) => (.failed e, s, b)

/-- Sends what is left of the header. -/
def sendHeader (w : GzipWriter C σ) : Outcome Unit × GzipWriter C σ :=
  match send w.header.length w.inner w.header with
  | (r, inner, header) => (r, { w with inner, header })

/-- Sends the queue. -/
def sendQueue (w : GzipWriter C σ) : Outcome Unit × GzipWriter C σ :=
  match send w.queue.length w.inner w.queue with
  | (r, inner, queue) => (r, { w with inner, queue })

/-- Sends the queue and hands data to the coder until it takes some. In a round without that it puts
out bytes that were held, so `fuel > held` always suffices. -/
def writeRounds : Nat → GzipWriter C σ → Bytes → Outcome Nat × GzipWriter C σ
  | 0, w, _ => (.done 0, w)
  | fuel + 1, w, b =>
    match w.sendQueue with
    | (.interrupted, w) => (.interrupted, w)
    | (.failed e, w) => (.failed e, w)
    | (.done (), w) =>
      let (w, n) := w.code b
      -- to tell that nothing was taken would be a failure for whoever writes
      if n = 0 && !b.isEmpty then writeRounds fuel w b else (.done n, w)

/-- One write: what waits is sent first. -/
def writeOnce (w : GzipWriter C σ) (b : Bytes) : Outcome Nat × GzipWriter C σ :=
  match w.sendHeader with
  | (.interrupted, w) => (.interrupted, w)
  | (.failed e, w) => (.failed e, w)
  | (.done (), w) => writeRounds (C.held w.coder + 1) w b

/-- Sends the queue and what the coder holds, until it puts out nothing more. It puts out bytes that
were held, so `fuel > held` always suffices. -/
def sendHeld : Nat → GzipWriter C σ → Outcome Unit × GzipWriter C σ
  | 0, w => (.done (), w)
  | fuel + 1, w =>
    match w.sendQueue with
    | (.done (), w) =>
      let (w, _) := w.code []
      if w.queue.isEmpty then (.done (), w) else sendHeld fuel w
    | r => r

/-- Closes a segment and sends everything. -/
def flushAll (w : GzipWriter C σ) : Except Failure Unit × GzipWriter C σ :=
  match w.sendHeader with
  | (.interrupted, w) => (.error .interrupted, w)
  | (.failed e, w) => (.error e, w)
  | (.done (), w) =>
    let w := w.pause
    match sendHeld (C.held w.coder + 1) w with
    | (.interrupted, w) => (.error .interrupted, w)
    | (.failed e, w) => (.error e, w)
    | (.done (), w) =>
      match Sink.flush w.inner with
      | (r, inner) => (r, { w with inner })

/-- Ends the member. -/
def sendEnding (w : GzipWriter C σ) : Except Failure Unit × Counted σ :=
  let ending := w.ending
  match send ending.length w.inner ending with
  | (r, inner, _) => (r.settle, inner)

/-- Ends the member and pads it. -/
def finish (w : GzipWriter C σ) (draws : List UInt64) : Except Failure StreamSizes × σ :=
  match w.sendEnding with
  | (.error e, inner) => (.error e, inner.inner)
  | (.ok (), inner) =>
    let (padding, _) := Padding.amount inner.count w.policy draws
    match Sink.fillZeros inner.inner padding with
    | (.error e, s) => (.error e, s)
    | (.ok (), s) => (.ok ⟨w.plaintextLength, inner.count, padding⟩, s)

/-- No more is taken than there is. -/
theorem writeRounds_le : ∀ (fuel : Nat) (w : GzipWriter C σ) (b : Bytes) (n : Nat),
    (writeRounds fuel w b).1 = .done n → n ≤ b.length
  | 0, _, _, _, h => by cases h; exact Nat.zero_le _
  | fuel + 1, w, b, n, h => by
    unfold writeRounds at h
    split at h
    · cases h
    · cases h
    · simp only at h
      split at h
      · exact writeRounds_le fuel _ b n h
      · cases h
        exact C.taken_le _ queueLength b

instance : Sink (GzipWriter C σ) where
  write := writeOnce
  flush := flushAll
  patience w :=
    (w.header.length + w.queue.length + C.held w.coder + 1) * (Sink.patience w.inner + 1)
  write_le w b n h := by
    unfold writeOnce at h
    split at h
    · cases h
    · cases h
    · exact writeRounds_le _ _ b n h

end GzipWriter
end ChatBackup
