import ChatBackup.Gzip.PrefixCode

/-!
# Blocks of compressed data

Compressed data is a row of blocks. A block opens with a bit that marks the last one and two bits
for its kind: bytes as they stand, or symbols under a fixed pair of codes, or under a pair of codes
that the block begins with. A symbol is a byte, the end of the block, or the length of a copy; the
distance of the copy follows under the second code.
-/

namespace ChatBackup

/-- The two codes of a block: one for bytes, lengths and the end, one for distances. -/
structure BlockCodes where
  literals : PrefixCode
  distances : PrefixCode
  deriving DecidableEq, Repr

/-- How a block begins. -/
inductive BlockStart where
  /-- So many bytes follow as they stand. -/
  | stored (length : Nat)
  /-- Symbols follow. -/
  | coded (codes : BlockCodes)
  deriving DecidableEq, Repr

/-- One item inside a block of symbols. -/
inductive BlockItem where
  | literal (byte : UInt8)
  /-- Repeat `length` bytes from `distance` bytes back. -/
  | copy (distance length : Nat)
  | endOfBlock
  deriving DecidableEq, Repr

namespace Block

/-- The symbol that ends a block. -/
def endSymbol : Nat := 256

/-- For each symbol of a length the shortest length it stands for and the number of bits that tell
how much longer the copy is. -/
def lengthSteps : List (Nat × Nat) := [
  (3, 0), (4, 0), (5, 0), (6, 0), (7, 0), (8, 0), (9, 0), (10, 0), (11, 1), (13, 1), (15, 1),
  (17, 1), (19, 2), (23, 2), (27, 2), (31, 2), (35, 3), (43, 3), (51, 3), (59, 3), (67, 4),
  (83, 4), (99, 4), (115, 4), (131, 5), (163, 5), (195, 5), (227, 5), (258, 0)]

/-- For each symbol of a distance the shortest distance it stands for and the number of bits that
tell how much further back the copy begins. -/
def distanceSteps : List (Nat × Nat) := [
  (1, 0), (2, 0), (3, 0), (4, 0), (5, 1), (7, 1), (9, 2), (13, 2), (17, 3), (25, 3), (33, 4),
  (49, 4), (65, 5), (97, 5), (129, 6), (193, 6), (257, 7), (385, 7), (513, 8), (769, 8),
  (1025, 9), (1537, 9), (2049, 10), (3073, 10), (4097, 11), (6145, 11), (8193, 12), (12289, 12),
  (16385, 13), (24577, 13)]

/-- The word lengths of the fixed codes. -/
def fixedLiteralLengths : List Nat :=
  List.replicate 144 8 ++ List.replicate 112 9 ++ List.replicate 24 7 ++ List.replicate 8 8

/-- The word lengths of the fixed code for distances. -/
def fixedDistanceLengths : List Nat := List.replicate 32 5

/-- The fixed codes. -/
def fixedCodes : BlockCodes where
  literals := .ofLengths fixedLiteralLengths
  distances := .ofLengths fixedDistanceLengths

/-- The order in which a block tells the word lengths of the code that its other word lengths are
written in. -/
def lengthOrder : List Nat := [16, 17, 18, 0, 8, 7, 9, 6, 10, 5, 11, 4, 12, 3, 13, 2, 14, 1, 15]

open BitReader

/-- Reads the word lengths of both codes: `left` of them are missing, those read stand in reverse.
A length can be told to repeat. Each round adds a length at least, so `fuel ≥ left` always
suffices. -/
def lengthsReader (code : PrefixCode) : Nat → Nat → List Nat → BitReader (List Nat)
  | 0, _, done => give done.reverse
  | fuel + 1, left, done =>
    if left = 0 then give done.reverse
    else do
      let again (length count : Nat) : BitReader (List Nat) := do
        ensure (count ≤ left)
        lengthsReader code fuel (left - count) (List.replicate count length ++ done)
      match ← code.reader with
      -- the last length again, few zeros, many zeros
      | 16 =>
        match done with
        | [] => refuse
        | last :: _ => again last (3 + (← number 2))
      | 17 => again 0 (3 + (← number 3))
      | 18 => again 0 (11 + (← number 7))
      | length => again length 1

/-- Whether word lengths give a code: it leaves no room, or has at most one word. -/
def isUsable (lengths : List Nat) : Bool :=
  PrefixCode.used lengths ≤ 1 || PrefixCode.isComplete lengths

/-- Reads the codes that a block begins with. -/
def codesReader : BitReader BlockCodes := do
  let literalCount := 257 + (← number 5)
  let distanceCount := 1 + (← number 5)
  let orderCount := 4 + (← number 4)
  -- more symbols can be told than exist
  ensure (literalCount ≤ 286 && distanceCount ≤ 30)
  let told ← times (number 3) orderCount
  let lengths := (List.range 19).map fun symbol => (told[lengthOrder.idxOf symbol]?).getD 0
  -- this code, unlike the other two, must be complete
  ensure (PrefixCode.isComplete lengths)
  let total := literalCount + distanceCount
  let both ← lengthsReader (.ofLengths lengths) total total []
  let literals := both.take literalCount
  let distances := both.drop literalCount
  ensure (isUsable literals && isUsable distances)
  give { literals := .ofLengths literals, distances := .ofLengths distances }

/-- Reads the length of a block of bytes as they stand: a number and its complement. -/
def storedReader : BitReader Nat := do
  align
  let length ← number 16
  let complement ← number 16
  ensure (length + complement == 0xffff)
  give length

/-- Reads how a block begins and whether it is the last one. -/
def startReader : BitReader (Bool × BlockStart) :=
  bit.andThen fun final => do
    match ← number 2 with
    | 0 => give (final, .stored (← storedReader))
    | 1 => give (final, .coded fixedCodes)
    | 2 => give (final, .coded (← codesReader))
    | _ => refuse

/-- Reads a value that is told by its symbol and some bits more. -/
def stepReader (steps : List (Nat × Nat)) (symbol : Nat) : BitReader Nat :=
  match steps[symbol]? with
  | some (least, width) => do give (least + (← number width))
  | none => refuse

/-- Reads an item of a block. -/
def itemReader (codes : BlockCodes) : BitReader BlockItem :=
  codes.literals.reader.andThen fun symbol =>
    if symbol < endSymbol then give (.literal (UInt8.ofNat symbol))
    else if symbol = endSymbol then give .endOfBlock
    else do
      let length ← stepReader lengthSteps (symbol - endSymbol - 1)
      let distance ← stepReader distanceSteps (← codes.distances.reader)
      give (.copy distance length)

/-- The beginning of a block takes at least one bit. -/
theorem length_lt_of_start {bits : Bits} {x : Bool × BlockStart} {rest : Bits}
    (h : startReader.run bits = .done x rest) : rest.length < bits.length :=
  length_lt_of_bit h

/-- An item takes at least one bit. -/
theorem length_lt_of_item {codes : BlockCodes} {bits : Bits} {x : BlockItem} {rest : Bits}
    (h : (itemReader codes).run bits = .done x rest) : rest.length < bits.length :=
  length_lt_of_andThen PrefixCode.length_lt h

end Block
end ChatBackup
