import ChatBackup.Channel.Sink
import ChatBackup.Channel.Source

/-!
# Channels in memory with a script of faults

`ScriptedSource` reads from an array and `ScriptedSink` collects what is written to it. Both follow
a script: how much moves in one call, whether every other call is interrupted, and where they fail.
With an empty script they are the plain in-memory source and sink.
-/

namespace ChatBackup

/-- A number cut down to a limit, if there is one. -/
def atMost (limit : Option Nat) (n : Nat) : Nat :=
  match limit with
  | some m => min n m
  | none => n

theorem atMost_le (limit : Option Nat) (n : Nat) : atMost limit n ≤ n := by
  unfold atMost
  split <;> omega

/-- A limit that is not zero leaves something. -/
theorem atMost_pos {limit : Option Nat} (hlimit : limit ≠ some 0) {n : Nat} (hn : 0 < n) :
    0 < atMost limit n := by
  cases limit with
  | none => exact hn
  | some m =>
    have hm : m ≠ 0 := fun h0 => hlimit (congrArg some h0)
    show 0 < min n m
    omega

/-! ## The source -/

/-- A source over an array of bytes. -/
structure ScriptedSource where
  /-- All bytes of the source. -/
  data : Array UInt8
  /-- The position of the next read. -/
  pos : Nat := 0
  /-- The most that one read delivers. -/
  chunk : Option Nat := none
  /-- Whether the first, third, fifth, … read is interrupted. -/
  interrupts : Bool := false
  /-- A position that no read crosses and from which on reads fail. -/
  failAt : Option (Nat × Failure) := none
  /-- How many seeks it takes before `failAt` holds. -/
  armedAfter : Nat := 0
  /-- The seek, counted from 1, that fails. -/
  failSeek : Option (Nat × Failure) := none
  /-- The position that a seek to the end goes to, if not the true end. -/
  claimedEnd : Option Nat := none
  /-- Reads so far. -/
  reads : Nat := 0
  /-- Seeks so far. -/
  seeks : Nat := 0

namespace ScriptedSource

/-- A source over the bytes given, without any fault. -/
def ofBytes (b : Bytes) : ScriptedSource := { data := b.toArray }

/-- The failing position and its failure, once enough seeks were made. -/
def armed (s : ScriptedSource) : Option (Nat × Failure) :=
  if s.armedAfter ≤ s.seeks then s.failAt else none

/-- The bytes that one uninterrupted read of `n` delivers. -/
def piece (s : ScriptedSource) (n : Nat) : Bytes :=
  let stop := atMost (s.armed.map (·.1)) (s.pos + atMost s.chunk n)
  (s.data.extract s.pos stop).toList

theorem length_piece_le (s : ScriptedSource) (n : Nat) : (s.piece n).length ≤ n := by
  have h₁ := atMost_le (s.armed.map (·.1)) (s.pos + atMost s.chunk n)
  have h₂ := atMost_le s.chunk n
  simp only [piece, Array.length_toList, Array.size_extract]
  omega

/-- The failure that stands in the way at the current position. -/
def blocked (s : ScriptedSource) : Option Failure :=
  match s.armed with
  | some (limit, e) => if limit ≤ s.pos then some e else none
  | none => none

/-- One read. -/
def readOnce (s : ScriptedSource) (n : Nat) : Outcome Bytes × ScriptedSource :=
  let t := { s with reads := s.reads + 1 }
  -- an even number of reads went before, so this is the first, the third or a later odd one
  if s.interrupts && s.reads % 2 == 0 then (.interrupted, t)
  else
    match s.blocked with
    | some e => (.failed e, t)
    | none => (.done (s.piece n), { t with pos := s.pos + (s.piece n).length })

/-- One seek, to the position given unless the script lets it fail. -/
def seek (s : ScriptedSource) (target : Nat) : Except Failure Nat × ScriptedSource :=
  let t := { s with seeks := s.seeks + 1 }
  match s.failSeek with
  | some (k, e) =>
    if k = s.seeks + 1 then (.error e, t) else (.ok target, { t with pos := target })
  | none => (.ok target, { t with pos := target })

/-- A seek to the start. -/
def rewind (s : ScriptedSource) : Except Failure Unit × ScriptedSource :=
  match seek s 0 with
  | (r, t) => (r.map fun _ => (), t)

instance : SeekableSource ScriptedSource where
  read := readOnce
  turns s := 2 * (s.data.size - s.pos) + (if s.interrupts && s.reads % 2 == 0 then 1 else 0)
  read_le s n b h := by
    unfold readOnce at h
    simp only at h
    split at h
    · simp at h
    · split at h
      · simp at h
      · simp only [Outcome.done.injEq] at h
        exact h ▸ length_piece_le s n
  toEnd s := seek s (s.claimedEnd.getD s.data.size)
  toStart := rewind

end ScriptedSource

/-! ## The sink -/

/-- A sink that collects what it accepts. -/
structure ScriptedSink where
  /-- The most that one write accepts. -/
  maxWrite : Option Nat := none
  /-- Whether the first, third, fifth, … write is interrupted. -/
  interrupts : Bool := false
  /-- How many bytes are accepted before writes fail. -/
  failAt : Option (Nat × Failure) := none
  /-- How many bytes are accepted before writes accept nothing more. -/
  zeroAt : Option Nat := none
  /-- The flush, counted from 1, from which on flushes fail. -/
  failFlush : Option (Nat × Failure) := none
  /-- The failure of every append. -/
  failAppend : Option Failure := none
  /-- The pieces accepted so far, newest first. -/
  pieces : List Bytes := []
  /-- How many bytes the pieces hold. -/
  accepted : Nat := 0
  /-- Bytes appended apart from the written ones. -/
  tail : Bytes := []
  /-- Writes so far. -/
  writes : Nat := 0
  /-- Flushes so far. -/
  flushes : Nat := 0

namespace ScriptedSink

/-- All bytes accepted by writes. -/
def body (s : ScriptedSink) : Bytes := s.pieces.reverse.flatten

/-- All bytes of the sink, the appended ones last. -/
def bytes (s : ScriptedSink) : Bytes := s.body ++ s.tail

/-- How much of `n` bytes a write accepts. -/
def room (s : ScriptedSink) (n : Nat) : Nat :=
  atMost (s.zeroAt.map (· - s.accepted))
    (atMost (s.failAt.map (·.1 - s.accepted)) (atMost s.maxWrite n))

theorem room_le (s : ScriptedSink) (n : Nat) : s.room n ≤ n :=
  Nat.le_trans (atMost_le _ _) (Nat.le_trans (atMost_le _ _) (atMost_le _ _))

/-- The failure that a write of `n` bytes meets. -/
def refused (s : ScriptedSink) (n : Nat) : Option Failure :=
  match s.failAt with
  | some (limit, e) => if limit ≤ s.accepted && 0 < n then some e else none
  | none => none

/-- One write. -/
def writeOnce (s : ScriptedSink) (b : Bytes) : Outcome Nat × ScriptedSink :=
  let t := { s with writes := s.writes + 1 }
  -- as for reads: the odd calls, counted from one
  if s.interrupts && s.writes % 2 == 0 then (.interrupted, t)
  else
    match s.refused b.length with
    | some e => (.failed e, t)
    | none =>
      let n := s.room b.length
      (.done n, { t with pieces := b.take n :: s.pieces, accepted := s.accepted + n })

/-- One flush. -/
def flushOnce (s : ScriptedSink) : Except Failure Unit × ScriptedSink :=
  let t := { s with flushes := s.flushes + 1 }
  match s.failFlush with
  | some (k, e) => if k ≤ s.flushes + 1 then (.error e, t) else (.ok (), t)
  | none => (.ok (), t)

/-- A flush only counts, also one that fails. -/
theorem snd_flushOnce (s : ScriptedSink) :
    (flushOnce s).2 = { s with flushes := s.flushes + 1 } := by
  unfold flushOnce
  simp only
  split
  · split <;> rfl
  · rfl

/-- One append, of all bytes at once. -/
def appendOnce (s : ScriptedSink) (b : Bytes) : Except Failure Unit × ScriptedSink :=
  match s.failAppend with
  | some e => (.error e, s)
  | none => (.ok (), { s with tail := s.tail ++ b })

instance : AppendSink ScriptedSink where
  write := writeOnce
  flush := flushOnce
  patience s := if s.interrupts then 1 else 0
  write_le s b n h := by
    unfold writeOnce at h
    simp only at h
    split at h
    · simp at h
    · split at h
      · simp at h
      · simp only [Outcome.done.injEq] at h
        exact h ▸ room_le s b.length
  append := appendOnce

end ScriptedSink

/-! ## Two sinks in one -/

/-- A sink whose closing string goes to another sink than all else. -/
structure Detached (σ τ : Type) where
  /-- Where writes go. -/
  body : σ
  /-- Where the closing string goes. -/
  tail : τ

namespace Detached

variable {σ τ : Type} [Sink σ] [Sink τ]

/-- What was written is flushed before the closing string is handed on. -/
instance : AppendSink (Detached σ τ) where
  write s b :=
    match Sink.write s.body b with
    | (r, t) => (r, ⟨t, s.tail⟩)
  flush s :=
    match Sink.flush s.body with
    | (r, t) => (r, ⟨t, s.tail⟩)
  patience s := Sink.patience s.body
  write_le s b n h := Sink.write_le s.body b n h
  append s b :=
    match Sink.flush s.body with
    | (.error e, t) => (.error e, ⟨t, s.tail⟩)
    | (.ok (), t) =>
      match Sink.writeAll s.tail b with
      | (r, u) => (r, ⟨t, u⟩)

end Detached
end ChatBackup
