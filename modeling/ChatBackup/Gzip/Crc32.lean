import ChatBackup.Bytes

/-!
# The cyclic redundancy check of gzip

The remainder of a byte string, read as a polynomial with its lowest bits first, on division by a
fixed polynomial of degree 32. `Crc32` is a check on its way through a string: bytes can be fed in
pieces of any size (`feed_append`).
-/

namespace ChatBackup

/-- A check on its way through a byte string. -/
structure Crc32 where
  /-- The remainder so far, complemented. -/
  register : UInt32
  deriving DecidableEq, Repr

namespace Crc32

/-- The dividing polynomial, lowest bits first. -/
def polynomial : UInt32 := 0xedb88320

/-- Divides one bit further. -/
def shift (r : UInt32) : UInt32 := if r &&& 1 = 1 then (r >>> 1) ^^^ polynomial else r >>> 1

/-- The remainder of a single byte. -/
def ofByte (b : Nat) : UInt32 := Nat.repeat shift 8 (UInt32.ofNat b)

/-- The remainders of all bytes. -/
def table : Array UInt32 := (Array.range 256).map ofByte

/-- Divides one byte further. -/
def step (r : UInt32) (b : UInt8) : UInt32 :=
  table[((r ^^^ b.toUInt32) &&& 0xff).toNat]?.getD 0 ^^^ (r >>> 8)

/-- The check before any byte. -/
def start : Crc32 := ⟨0xffffffff⟩

/-- Goes on through more bytes. -/
def feed (c : Crc32) (b : Bytes) : Crc32 := ⟨b.foldl step c.register⟩

/-- The check of the bytes fed. -/
def value (c : Crc32) : UInt32 := ~~~c.register

/-- The check of a whole string. -/
def check (b : Bytes) : UInt32 := (start.feed b).value

@[simp] theorem feed_nil (c : Crc32) : c.feed [] = c := rfl

/-- Bytes can be fed in pieces. -/
theorem feed_append (c : Crc32) (a b : Bytes) : c.feed (a ++ b) = (c.feed a).feed b := by
  simp [feed, List.foldl_append]

end Crc32
end ChatBackup
