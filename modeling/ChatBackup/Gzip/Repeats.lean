import ChatBackup.Gzip.Block
import ChatBackup.Gzip.Inflate

/-!
# Finding repeats

Data that was there before can be told as a copy. The search remembers for each mark, which is made
of three bytes, the latest place where it was met, and takes the copy from there if it is long
enough.
-/

namespace ChatBackup.Repeats

/-- The shortest copy. -/
def minLength : Nat := 3

/-- The longest copy. -/
def maxLength : Nat := 258

/-- The number of different marks. -/
def markCount : Nat := 32768

/-- The mark of the three bytes at a position. -/
def mark (data : Array UInt8) (i : Nat) : Nat :=
  let byte (k : Nat) : Nat := ((data[i + k]?).getD 0).toNat
  (byte 0 * 5923 + byte 1 * 271 + byte 2) % markCount

/-- For how many bytes, up to a limit, the data goes on in the same way from two positions. -/
def common (data : Array UInt8) : Nat → Nat → Nat → Nat
  | 0, _, _ => 0
  | limit + 1, i, j =>
    match data[i]?, data[j]? with
    | some x, some y => if x = y then common data limit (i + 1) (j + 1) + 1 else 0
    | _, _ => 0

/-- The length and the distance of the copy that may stand at a position. Marks are met at a
position one less than the number that is kept; zero stands for none. -/
def candidate (data : Array UInt8) (latest : Array Nat) (i : Nat) : Nat × Nat :=
  match latest[mark data i]?.getD 0 with
  | 0 => (0, 0)
  | k + 1 => if Inflater.window < i - k then (0, 0) else (common data maxLength k i, i - k)

/-- Tells data from a position on, in reverse after the items given. Each round tells a byte at
least, so `fuel ≥ data.size` always suffices. -/
def itemsFrom (data : Array UInt8) :
    Nat → Nat → Array Nat → List BlockItem → List BlockItem
  | 0, _, _, items => items
  | fuel + 1, i, latest, items =>
    match data[i]? with
    | none => items
    | some byte =>
      let (length, distance) := candidate data latest i
      let latest := latest.setIfInBounds (mark data i) (i + 1)
      if length < minLength then itemsFrom data fuel (i + 1) latest (.literal byte :: items)
      else itemsFrom data fuel (i + length) latest (.copy distance length :: items)

/-- Tells data as bytes and copies. -/
def items (data : Array UInt8) : List BlockItem :=
  (itemsFrom data data.size 0 (Array.replicate markCount 0) []).reverse

end ChatBackup.Repeats
