import ChatBackup.Gzip.Inflate
import ChatBackup.Gzip.Repeats
import ChatBackup.Gzip.WordLengths

/-!
# Compressing

A segment of data becomes one or more blocks that end at a byte. `storedSegment` leaves the bytes
as they stand. `codedSegment` tells them as bytes and copies under prefix codes, either the fixed
ones or some that the block begins with. Copies go back no further than the segment, so that
segments can be put together in any way.
-/

namespace ChatBackup.Deflate

/-! ## Stored blocks -/

/-- The number of bytes in a stored block that is followed by another one. -/
def storedLength : Nat := 31745

/-- A block with bytes as they stand. -/
def storedBlock (final : Bool) (b : Bytes) : Bytes :=
  (if final then 1 else 0) :: Bytes.littleEndian 2 b.length
    ++ Bytes.littleEndian 2 (0xffff - b.length) ++ b

/-- The block without bytes that closes a segment after which others follow. -/
def pauseBlock : Bytes := storedBlock false []

/-- The blocks at the end of a segment, with fewer bytes than a block that is followed by another
one: the last block of all, or a block unless it were empty and a pause. -/
def lastBlocks (final : Bool) (b : Bytes) : Bytes :=
  if final then storedBlock true b
  else if b.isEmpty then pauseBlock
  else storedBlock false b ++ pauseBlock

/-- Bytes as they stand, in as many blocks as they need. -/
def storedSegment (final : Bool) (b : Bytes) : Bytes :=
  if storedLength ≤ b.length then
    storedBlock false (b.take storedLength) ++ storedSegment final (b.drop storedLength)
  else lastBlocks final b
termination_by b.length
decreasing_by simp only [List.length_drop, storedLength] at *; omega

/-! ## Symbols and words -/

/-- The symbol for a value and the bits that follow it. -/
structure StepCode where
  symbol : Nat
  rest : Bits

/-- Tells a value by the last step that is not above it. -/
def stepCode (steps : List (Nat × Nat)) (value : Nat) : StepCode :=
  match (steps.zipIdx.takeWhile (·.1.1 ≤ value)).getLast? with
  | some ((least, width), symbol) => ⟨symbol, Bits.ofNat width (value - least)⟩
  | none => ⟨0, []⟩

/-- The words of a code by their symbols. -/
def wordTable (code : PrefixCode) (size : Nat) : Array Bits :=
  code.words.foldl (fun t (s, w) => t.setIfInBounds s w) (Array.replicate size [])

/-- A word of a table. -/
def word (table : Array Bits) (symbol : Nat) : Bits := (table[symbol]?).getD []

/-- The symbol of an item under the first code. -/
def literalSymbol : BlockItem → Nat
  | .literal byte => byte.toNat
  | .copy _ length => Block.endSymbol + 1 + (stepCode Block.lengthSteps length).symbol
  | .endOfBlock => Block.endSymbol

/-- The symbol of an item under the second code, if it has one. -/
def distanceSymbol : BlockItem → Option Nat
  | .copy distance _ => some (stepCode Block.distanceSteps distance).symbol
  | _ => none

/-- Puts the bits of an item in front of others. -/
def prependItem (literals distances : Array Bits) (item : BlockItem) (rest : Bits) : Bits :=
  let first := word literals (literalSymbol item)
  match item with
  | .copy distance length =>
    let d := stepCode Block.distanceSteps distance
    first ++ ((stepCode Block.lengthSteps length).rest
      ++ (word distances d.symbol ++ (d.rest ++ rest)))
  | _ => first ++ rest

/-- The bits of a block's items and its end under given codes. -/
def itemBits (codes : BlockCodes) (items : List BlockItem) : Bits :=
  let literals := wordTable codes.literals 288
  let distances := wordTable codes.distances 32
  items.foldr (prependItem literals distances) (word literals Block.endSymbol)

/-! ## Blocks of symbols -/

/-- A block under the fixed codes. -/
def fixedBlock (final : Bool) (items : List BlockItem) : Bits :=
  final :: Bits.ofNat 2 1 ++ itemBits Block.fixedCodes items

/-- How often each of some symbols occurs. -/
def countSymbols (size : Nat) (symbols : List Nat) : List Nat :=
  (symbols.foldl (fun t s => t.modify s (· + 1)) (Array.replicate size 0)).toList

/-- The symbols of items and of the end of a block under the first code. -/
def literalSymbols (items : List BlockItem) : List Nat :=
  Block.endSymbol :: items.map literalSymbol

/-- The symbols of items under the second code. -/
def distanceSymbols (items : List BlockItem) : List Nat := items.filterMap distanceSymbol

/-- A run of equal word lengths, told by repeating where that is shorter. Each round tells a length
at least, so `fuel ≥ count` always suffices. -/
def tellRun (length : Nat) : Nat → Nat → List StepCode
  | 0, _ => []
  | fuel + 1, count =>
    if count = 0 then []
    else if length = 0 && 11 ≤ count then
      let n := min count 138
      ⟨18, Bits.ofNat 7 (n - 11)⟩ :: tellRun length fuel (count - n)
    else if length = 0 && 3 ≤ count then
      let n := min count 10
      ⟨17, Bits.ofNat 3 (n - 3)⟩ :: tellRun length fuel (count - n)
    else if 4 ≤ count then
      let n := min (count - 1) 6
      ⟨length, []⟩ :: ⟨16, Bits.ofNat 2 (n - 3)⟩ :: tellRun length fuel (count - 1 - n)
    else ⟨length, []⟩ :: tellRun length fuel (count - 1)

/-- Word lengths, told run by run. -/
def tellLengths (lengths : List Nat) : List StepCode :=
  (lengths.splitBy (· == ·)).flatMap fun run => tellRun (run.headD 0) run.length run.length

/-- Leaves out the zeros at the end of a row but keeps the first `least` numbers. -/
def trimmed (least : Nat) (lengths : List Nat) : List Nat :=
  let size := (lengths.reverse.dropWhile (· == 0)).length
  lengths.take (max least size)

/-- What a block with codes of its own tells of them: how many symbols they have, the code that the
word lengths are written in, and the word lengths. Nothing if that code has too long words. -/
def tellCodes (literals distances : List Nat) : Option Bits := do
  let told := tellLengths (literals ++ distances)
  -- two more symbols are counted, so that at least two have words and the code is complete
  let lengths ← WordLengths.ofCounts 7 (countSymbols 19 (0 :: 18 :: told.map (·.symbol)))
  let table := wordTable (.ofLengths lengths) 19
  let ordered := trimmed 4 (Block.lengthOrder.map fun s => (lengths[s]?).getD 0)
  some (Bits.ofNat 5 (literals.length - 257) ++ Bits.ofNat 5 (distances.length - 1)
    ++ Bits.ofNat 4 (ordered.length - 4) ++ ordered.flatMap (Bits.ofNat 3)
    ++ told.flatMap fun t => word table t.symbol ++ t.rest)

/-- A block that begins with its own codes, unless their words are too long. -/
def ownBlock (final : Bool) (items : List BlockItem) : Option Bits := do
  let literals ← WordLengths.ofCounts 15 (countSymbols 286 (literalSymbols items))
  let distances ← WordLengths.ofCounts 15 (countSymbols 30 (distanceSymbols items))
  let literals := trimmed 257 literals
  let distances := trimmed 1 distances
  let told ← tellCodes literals distances
  let codes : BlockCodes := { literals := .ofLengths literals, distances := .ofLengths distances }
  some (final :: Bits.ofNat 2 2 ++ told ++ itemBits codes items)

/-! ## Segments -/

/-- Ends a segment at a byte: after the last block by filling the byte up, else by a block without
bytes. -/
def closed (final : Bool) (block : Bits) : Bytes :=
  if final then Bits.toBytes block
  else Bits.toBytes (block ++ Bits.ofNat 3 0) ++ pauseBlock.drop 1

/-- Data under prefix codes, in the shorter of the two ways. -/
def codedSegment (final : Bool) (data : Array UInt8) : Bytes :=
  let items := Repeats.items data
  let fixed := closed final (fixedBlock final items)
  match ownBlock final items with
  | none => fixed
  | some block =>
    let own := closed final block
    if own.length < fixed.length then own else fixed

/-- Data in its shortest form. -/
def segment (final : Bool) (data : Array UInt8) : Bytes :=
  let coded := codedSegment final data
  let stored := storedSegment final data.toList
  if coded.length < stored.length then coded else stored

end ChatBackup.Deflate
