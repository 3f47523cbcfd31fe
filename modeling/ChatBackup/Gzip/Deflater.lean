import ChatBackup.Gzip.Coder
import ChatBackup.Gzip.Deflate

/-!
# A compression on its way

`Deflater` takes data piece by piece. Whenever there is enough of it a block is made of it: without
compression a stored block of its first part, with compression a segment of all of it. A block for
which there is no room waits, and no more data is taken until there is room. It is a `Coder`.
-/

namespace ChatBackup

/-- A compression on its way. -/
structure Deflater where
  /-- Whether data is compressed, not only stored. -/
  coded : Bool
  /-- Data that is not in a block yet. -/
  pending : Array UInt8 := #[]
  /-- Compressed bytes that were not put out yet. -/
  waiting : Bytes := []

namespace Deflater

/-- How much data waits before a stored block is made of its first part. -/
def storedLimit : Nat := Deflate.storedLength + 257

/-- How much data waits before a segment is compressed. -/
def codedLimit : Nat := 65536

/-- How much data waits before a block is made of it. -/
def limit (d : Deflater) : Nat := if d.coded then codedLimit else storedLimit

/-- Makes compressed bytes wait. -/
def put (d : Deflater) (b : Bytes) : Deflater := { d with waiting := d.waiting ++ b }

/-- Puts out the bytes that wait, as far as there is room. -/
def give (d : Deflater) (room : Nat) : Deflater × Bytes :=
  ({ d with waiting := d.waiting.drop room }, d.waiting.take room)

/-- Makes a stored block of the first part of the data. -/
def storeFirst (d : Deflater) : Deflater :=
  ({ d with pending := d.pending.extract Deflate.storedLength } : Deflater).put
    (Deflate.storedBlock false (d.pending.extract 0 Deflate.storedLength).toList)

/-- Closes a segment of all the data. -/
def close (d : Deflater) : Deflater :=
  ({ d with pending := #[] } : Deflater).put
    (if d.coded then Deflate.segment false d.pending
      else Deflate.lastBlocks false d.pending.toList)

/-- Makes a block of the data once there is enough. -/
def pack (d : Deflater) : Deflater := if d.coded then d.close else d.storeFirst

/-- Takes data as far as the blocks made of it find room, and tells how much. Each round but the
last takes some, so `fuel > b.length` always suffices. -/
def takeRounds (room : Nat) : Nat → Deflater → Bytes → Deflater × Nat
  | 0, d, _ => (d, 0)
  | fuel + 1, d, b =>
    if room < d.waiting.length || b.isEmpty then (d, 0)
    else
      let piece := b.take (d.limit - d.pending.size)
      let d := { d with pending := d.pending ++ piece }
      if d.pending.size < d.limit then (d, piece.length)
      else
        let (d, n) := takeRounds room fuel d.pack (b.drop piece.length)
        (d, piece.length + n)

/-- Takes data and puts out the bytes that wait. -/
def take (d : Deflater) (room : Nat) (b : Bytes) : Coded Deflater :=
  let (d, taken) := takeRounds room (b.length + 1) d b
  let (d, out) := d.give room
  { state := d, taken, out }

/-- Closes a segment. While bytes wait, or there is no room at all, this is put off; if the first of
two stored blocks finds no room, the second is put off too. -/
def pause (d : Deflater) (room : Nat) : Deflater × Bytes :=
  if !d.waiting.isEmpty || room = 0 then d.give room
  else
    let d := if !d.coded && Deflate.storedLength ≤ d.pending.size then d.storeFirst else d
    -- the last blocks have to wait for the first one
    if room < d.waiting.length then d.give room else d.close.give room

/-- All compressed bytes that are still to come if no more data does. -/
def ending (d : Deflater) : Bytes :=
  d.waiting ++
    if d.coded then Deflate.segment true d.pending
    else Deflate.storedSegment true d.pending.toList

/-- No more is taken than there is. -/
theorem takeRounds_le (room : Nat) : ∀ (fuel : Nat) (d : Deflater) (b : Bytes),
    (d.takeRounds room fuel b).2 ≤ b.length
  | 0, _, _ => Nat.zero_le _
  | fuel + 1, d, b => by
    unfold takeRounds
    split
    · exact Nat.zero_le _
    · simp only
      split
      · simp only [List.length_take]; omega
      · have := takeRounds_le room fuel
          ({ d with pending := d.pending ++ b.take (d.limit - d.pending.size) } : Deflater).pack
          (b.drop (b.take (d.limit - d.pending.size)).length)
        simp only [List.length_drop, List.length_take] at this ⊢
        omega

/-- The deflater as a way to compress: level 0 only stores. -/
def coder : Coder where
  State := Deflater
  start level := { coded := level.value ≠ 0 }
  take := take
  pause := pause
  ending := ending
  held d := d.waiting.length
  taken_le d room b := takeRounds_le room (b.length + 1) d b

end Deflater
end ChatBackup
