/-!
# Padding

Zero bytes after the compressed data hide its exact length. Lengths fall into buckets that grow by
a twentieth each, from a smallest size on; padding fills a bucket, or is drawn evenly up to the
bucket of the next length, or is left out.

Where a bucket ends is computed in floating point (`bucketEnd`). Nothing else depends on how:
`bucketSize` takes the larger of that number and the length itself, so that it is never below the
length (`le_bucketSize`) nor below the smallest size (`firstBucket_le_bucketSize`).
-/

namespace ChatBackup

/-- How much padding follows the compressed data. -/
inductive PaddingPolicy where
  /-- Drawn evenly between nothing and the bucket of the next length. -/
  | randomized
  /-- Up to the end of the bucket. -/
  | bucketed
  /-- None. -/
  | disabled
  deriving DecidableEq, Repr

/-- The names of the policies in settings. -/
def PaddingPolicy.name : PaddingPolicy → String
  | randomized => "randomized"
  | bucketed => "bucketed"
  | disabled => "disabled"

/-- The policy with a given name. -/
def PaddingPolicy.ofName? : String → Option PaddingPolicy
  | "randomized" => some .randomized
  | "bucketed" => some .bucketed
  | "disabled" => some .disabled
  | _ => none

/-- The largest number of 64 bits. -/
def maxUInt64 : Nat := UInt64.size - 1

namespace Padding

/-- The end of the first bucket. -/
def firstBucket : Nat := 541

/-- How much each bucket is larger than the one before it. -/
def growth : Float := 1.05

/-- The first power of `growth` that is not below a length, without its fraction. -/
def bucketEnd (length : Nat) : Nat :=
  let exponent := ((UInt64.ofNat length).toFloat.log / growth.log).ceil
  (growth.pow exponent).floor.toUInt64.toNat

/-- The end of the bucket that a length falls into. -/
def bucketSize (length : Nat) : Nat :=
  if length ≤ firstBucket then firstBucket else max (bucketEnd length) length

/-- The largest padding that may be drawn for a length. -/
def maxRandom (length : Nat) : Nat := bucketSize (min (length + 1) maxUInt64) - length

/-- One trial of drawing a number below `range` from 64 random bits: the upper half of the product,
unless the lower half lies in the part that would make some numbers more likely than others. -/
def trial (range draw : Nat) : Option Nat :=
  let product := draw * range
  -- the greatest product of the range with a power of two in 64 bits, less one
  let zone := range <<< (63 - range.log2) - 1
  if product % UInt64.size ≤ zone then some (product / UInt64.size) else none

/-- A number drawn evenly up to and including `max`, and the number of draws it took. When the
draws given are used up, zeros follow. -/
def uniform (max : Nat) : List UInt64 → Nat × Nat
  | [] => (0, 1)
  | draw :: draws =>
    -- every number of 64 bits is wanted, so the draw itself will do
    if max = maxUInt64 then (draw.toNat, 1)
    else
      match trial (max + 1) draw.toNat with
      | some n => (n, 1)
      | none =>
        let (n, used) := uniform max draws
        (n, used + 1)

/-- The number of padding bytes after `length` bytes, and the number of draws it took. -/
def amount (length : Nat) (policy : PaddingPolicy) (draws : List UInt64) : Nat × Nat :=
  match policy with
  | .disabled => (0, 0)
  | .bucketed => (bucketSize length - length, 0)
  | .randomized => uniform (maxRandom length) draws

theorem le_bucketSize (n : Nat) : n ≤ bucketSize n := by
  unfold bucketSize
  split <;> omega

theorem firstBucket_le_bucketSize (n : Nat) : firstBucket ≤ bucketSize n := by
  unfold bucketSize
  split <;> omega

end Padding

/-- Byte counts of a finished compressed stream. -/
structure StreamSizes where
  /-- Bytes before compression. -/
  plaintext : Nat
  /-- Bytes after compression. -/
  compressed : Nat
  /-- Zero bytes after those. -/
  padding : Nat
  deriving DecidableEq, Repr

/-- All bytes of the finished stream. -/
def StreamSizes.total (s : StreamSizes) : Nat := s.compressed + s.padding

end ChatBackup
