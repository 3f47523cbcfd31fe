import ChatBackup.Bytes

/-!
# SHA-256

The hash takes bytes one by one: sixty-four of them make a block, which changes the state of eight
words. `update` is a fold over the bytes, so that the hash of a string does not depend on how it
was cut into pieces (`update_append`).
-/

namespace ChatBackup.Sha256

/-- The eight words of the hash. -/
structure State where
  a : UInt32
  b : UInt32
  c : UInt32
  d : UInt32
  e : UInt32
  f : UInt32
  g : UInt32
  h : UInt32
  deriving DecidableEq, Repr

/-- The number of bytes in a block. -/
def blockLength : Nat := 64

/-- The number of bytes in a digest. -/
def digestLength : Nat := 32

/-- The state before any block. -/
def initial : State :=
  ⟨0x6a09e667, 0xbb67ae85, 0x3c6ef372, 0xa54ff53a, 0x510e527f, 0x9b05688c, 0x1f83d9ab,
   0x5be0cd19⟩

/-- The constants of the sixty-four rounds. -/
def constants : Array UInt32 := #[
  0x428a2f98, 0x71374491, 0xb5c0fbcf, 0xe9b5dba5, 0x3956c25b, 0x59f111f1, 0x923f82a4, 0xab1c5ed5,
  0xd807aa98, 0x12835b01, 0x243185be, 0x550c7dc3, 0x72be5d74, 0x80deb1fe, 0x9bdc06a7, 0xc19bf174,
  0xe49b69c1, 0xefbe4786, 0x0fc19dc6, 0x240ca1cc, 0x2de92c6f, 0x4a7484aa, 0x5cb0a9dc, 0x76f988da,
  0x983e5152, 0xa831c66d, 0xb00327c8, 0xbf597fc7, 0xc6e00bf3, 0xd5a79147, 0x06ca6351, 0x14292967,
  0x27b70a85, 0x2e1b2138, 0x4d2c6dfc, 0x53380d13, 0x650a7354, 0x766a0abb, 0x81c2c92e, 0x92722c85,
  0xa2bfe8a1, 0xa81a664b, 0xc24b8b70, 0xc76c51a3, 0xd192e819, 0xd6990624, 0xf40e3585, 0x106aa070,
  0x19a4c116, 0x1e376c08, 0x2748774c, 0x34b0bcb5, 0x391c0cb3, 0x4ed8aa4a, 0x5b9cca4f, 0x682e6ff3,
  0x748f82ee, 0x78a5636f, 0x84c87814, 0x8cc70208, 0x90befffa, 0xa4506ceb, 0xbef9a3f7, 0xc67178f2]

/-- A word turned right. -/
@[inline] def rotate (x : UInt32) (k : UInt32) : UInt32 := (x >>> k) ||| (x <<< (32 - k))

/-- The word that four bytes make, highest first. -/
@[inline] def word (b0 b1 b2 b3 : UInt8) : UInt32 :=
  (b0.toUInt32 <<< 24) ||| (b1.toUInt32 <<< 16) ||| (b2.toUInt32 <<< 8) ||| b3.toUInt32

/-- The sixteen words of a block. -/
def words (block : Array UInt8) : Array UInt32 :=
  (List.range 16).foldl (fun w i => w.push (word (block.getD (4 * i) 0) (block.getD (4 * i + 1) 0)
    (block.getD (4 * i + 2) 0) (block.getD (4 * i + 3) 0))) #[]

/-- The next word of a schedule. -/
@[inline] def nextWord (w : Array UInt32) : UInt32 :=
  let n := w.size
  let x := w.getD (n - 15) 0
  let y := w.getD (n - 2) 0
  let s0 := rotate x 7 ^^^ rotate x 18 ^^^ (x >>> 3)
  let s1 := rotate y 17 ^^^ rotate y 19 ^^^ (y >>> 10)
  w.getD (n - 16) 0 + s0 + w.getD (n - 7) 0 + s1

/-- The sixty-four words that the rounds for a block use. -/
def schedule (block : Array UInt8) : Array UInt32 :=
  (List.range 48).foldl (fun w _ => w.push (nextWord w)) (words block)

/-- One round with a word and a constant. -/
@[inline] def round (s : State) (w k : UInt32) : State :=
  let s1 := rotate s.e 6 ^^^ rotate s.e 11 ^^^ rotate s.e 25
  let ch := (s.e &&& s.f) ^^^ ((~~~ s.e) &&& s.g)
  let t1 := s.h + s1 + ch + k + w
  let s0 := rotate s.a 2 ^^^ rotate s.a 13 ^^^ rotate s.a 22
  let maj := (s.a &&& s.b) ^^^ (s.a &&& s.c) ^^^ (s.b &&& s.c)
  ⟨t1 + (s0 + maj), s.a, s.b, s.c, s.d + t1, s.e, s.f, s.g⟩

/-- Takes a block into the state. -/
def compress (s : State) (block : Array UInt8) : State :=
  let w := schedule block
  let t := (List.range 64).foldl (fun t i => round t (w.getD i 0) (constants.getD i 0)) s
  ⟨s.a + t.a, s.b + t.b, s.c + t.c, s.d + t.d, s.e + t.e, s.f + t.f, s.g + t.g, s.h + t.h⟩

/-- A hash in progress: the state after the whole blocks, the bytes after them and the number of
all bytes. -/
structure Context where
  state : State := initial
  pending : Array UInt8 := #[]
  length : Nat := 0

/-- Takes a byte into the hash. -/
def feed (c : Context) (x : UInt8) : Context :=
  let pending := c.pending.push x
  if pending.size = blockLength then
    { state := compress c.state pending, pending := #[], length := c.length + 1 }
  else { state := c.state, pending, length := c.length + 1 }

/-- Takes bytes into the hash. -/
def update (c : Context) (b : Bytes) : Context := b.foldl feed c

/-- What closes a message of a given length: a mark, zeros and the length in bits, up to the end of
a block. -/
def closing (length : Nat) : Bytes :=
  0x80 :: (List.replicate ((119 - length % 64) % 64) 0 ++ Bytes.bigEndian 8 (8 * length))

/-- The digest of the bytes taken so far. -/
def digest (c : Context) : Bytes :=
  let s := (update c (closing c.length)).state
  [s.a, s.b, s.c, s.d, s.e, s.f, s.g, s.h].flatMap fun x => Bytes.bigEndian 4 x.toNat

/-- The digest of a string. -/
def hash (b : Bytes) : Bytes := digest (update {} b)

/-- Taking two strings one after another is taking their concatenation. -/
theorem update_append (c : Context) (x y : Bytes) : update c (x ++ y) = update (update c x) y := by
  simp [update]

@[simp] theorem length_digest (c : Context) : (digest c).length = digestLength := by
  simp [digest, digestLength]

/-- The digest of the bytes `abc`, as the standard of the hash gives it. -/
example : hash [0x61, 0x62, 0x63] = [
    0xba, 0x78, 0x16, 0xbf, 0x8f, 0x01, 0xcf, 0xea, 0x41, 0x41, 0x40, 0xde, 0x5d, 0xae, 0x22, 0x23,
    0xb0, 0x03, 0x61, 0xa3, 0x96, 0x17, 0x7a, 0x9c, 0xb4, 0x10, 0xff, 0x61, 0xf2, 0x00, 0x15, 0xad]
    := by
  decide +kernel

end ChatBackup.Sha256
