import ChatBackup.Gzip.Block

/-!
# Decompressing

An `Inflater` works through compressed data that arrives piece by piece. `advance` goes as far as
the bits and the room for output allow. It looks ahead of the output: an item is read even if there
is no room left for the bytes it stands for, which then wait.
-/

namespace ChatBackup

/-- Where in the compressed data decompression stands. -/
inductive InflatePhase where
  /-- Before a block. -/
  | start
  /-- Inside a block of bytes as they stand, before one byte and so many more. -/
  | stored (more : Nat)
  /-- Inside a block of symbols, before the next item. -/
  | item (codes : BlockCodes)
  /-- Before putting out a byte. -/
  | literal (byte : UInt8) (codes : BlockCodes)
  /-- Before repeating one byte and so many more from a distance back. -/
  | copy (distance more : Nat) (codes : BlockCodes)
  /-- After the last block. -/
  | finished
  deriving DecidableEq, Repr

/-- Why decompression stopped where it is. -/
inductive InflateHalt where
  /-- There is no room for the next byte. -/
  | full
  /-- The bits end. -/
  | starved
  /-- The bits break the rules. -/
  | corrupt
  /-- The last block has ended. -/
  | finished
  deriving DecidableEq, Repr

/-- A decompression on its way. -/
structure Inflater where
  phase : InflatePhase := .start
  /-- Whether the block is the last one. -/
  final : Bool := false
  /-- All bytes put out so far. -/
  out : Array UInt8 := #[]
  /-- The bits not taken yet. -/
  bits : Bits := []
  deriving DecidableEq, Repr

namespace Inflater

/-- How far back a copy may begin, and how many bytes are put out between two pauses. -/
def window : Nat := 32768

/-- The byte at a distance back. Before the first byte there are zeros. -/
def back (out : Array UInt8) (distance : Nat) : UInt8 :=
  if distance ≤ out.size then (out[out.size - distance]?).getD 0 else 0

/-- After the end of a block. -/
def afterBlock (final : Bool) : InflatePhase := if final then .finished else .start

/-- At the beginning of the part of a block that holds its bytes. -/
def insideBlock (final : Bool) : BlockStart → InflatePhase
  | .stored 0 => afterBlock final
  | .stored (more + 1) => .stored more
  | .coded codes => .item codes

/-- After one of the bytes that stand as they are. -/
def afterStored (final : Bool) : Nat → InflatePhase
  | 0 => afterBlock final
  | more + 1 => .stored more

/-- After one of the bytes of a copy. -/
def afterCopied (distance more : Nat) (codes : BlockCodes) : InflatePhase :=
  match more with
  | 0 => .item codes
  | more + 1 => .copy distance more codes

/-- After an item of a block. -/
def afterItem (final : Bool) (codes : BlockCodes) : BlockItem → InflatePhase
  | .literal byte => .literal byte codes
  | .copy _ 0 => .item codes
  | .copy distance (more + 1) => .copy distance more codes
  | .endOfBlock => afterBlock final

/-- Goes on until the output is `room` bytes longer or it has to stop for another reason. -/
def advance (i : Inflater) (room : Nat) : Inflater × InflateHalt :=
  match i.phase with
  | .finished => (i, .finished)
  | .start =>
    match h : Block.startReader.run i.bits with
    | .done (final, start) rest =>
      have := Block.length_lt_of_start h
      advance { i with phase := insideBlock final start, final, bits := rest } room
    | .starved => (i, .starved)
    | .corrupt => (i, .corrupt)
  | .item codes =>
    match h : (Block.itemReader codes).run i.bits with
    | .done item rest =>
      have := Block.length_lt_of_item h
      advance { i with phase := afterItem i.final codes item, bits := rest } room
    | .starved => (i, .starved)
    | .corrupt => (i, .corrupt)
  | .stored more =>
    if room = 0 then (i, .full)
    else
      match h : BitReader.byte.run i.bits with
      | .done byte rest =>
        have := BitReader.byte.length_le h
        advance { i with
          phase := afterStored i.final more, out := i.out.push byte, bits := rest } (room - 1)
      | .starved => (i, .starved)
      | .corrupt => (i, .corrupt)
  -- from here on bytes that were read already go out as soon as there is room
  | .literal byte codes =>
    if room = 0 then (i, .full)
    else advance { i with phase := .item codes, out := i.out.push byte } (room - 1)
  | .copy distance more codes =>
    if room = 0 then (i, .full)
    else
      advance { i with
        phase := afterCopied distance more codes
        out := i.out.push (back i.out distance) } (room - 1)
termination_by i.bits.length + room
decreasing_by all_goals omega

/-- Takes in more compressed bytes. -/
def feed (i : Inflater) (b : Bytes) : Inflater := { i with bits := i.bits ++ Bits.ofBytes b }

end Inflater
end ChatBackup
