/-!
# The block cipher AES-256

A block is four columns of four bytes. `Aes256.cipher` gives, for a key of two blocks, the cipher
as a `BlockCipher`: two functions on blocks of which the second undoes the first. That law is part
of the type, so whatever is built over a block cipher may use it for every key.

Each layer of a round has its inverse beside it: the byte substitution is a table with its inverse
table, shifting the rows moves bytes, and mixing the columns is linear over the bytes, so that its
inverse is checked on single bytes (`unmixColumn_mixColumn`).
-/

namespace ChatBackup

/-- Four bytes of a block, one under another. -/
structure Column where
  b0 : UInt8
  b1 : UInt8
  b2 : UInt8
  b3 : UInt8
  deriving DecidableEq, Repr

/-- Sixteen bytes, column after column. -/
structure Block where
  c0 : Column
  c1 : Column
  c2 : Column
  c3 : Column
  deriving DecidableEq, Repr

/-- The bytes of two columns added without carry. -/
@[inline] def Column.xor (x y : Column) : Column :=
  ⟨x.b0 ^^^ y.b0, x.b1 ^^^ y.b1, x.b2 ^^^ y.b2, x.b3 ^^^ y.b3⟩

/-- The bytes of two blocks added without carry. -/
@[inline] def Block.xor (x y : Block) : Block :=
  ⟨x.c0.xor y.c0, x.c1.xor y.c1, x.c2.xor y.c2, x.c3.xor y.c3⟩

theorem Column.xor_xor_cancel (x y : Column) : (x.xor y).xor y = x := by
  cases x; cases y; simp only [Column.xor, UInt8.xor_assoc, UInt8.xor_self, UInt8.xor_zero]

theorem Block.xor_xor_cancel (x y : Block) : (x.xor y).xor y = x := by
  cases x; cases y; simp [Block.xor, Column.xor_xor_cancel]

/-- A cipher on single blocks: two functions of which the second undoes the first. -/
structure BlockCipher where
  encrypt : Block → Block
  decrypt : Block → Block
  decrypt_encrypt : ∀ b, decrypt (encrypt b) = b

namespace Aes256

/-- The byte that each byte is replaced by, in rows by its upper half. -/
def substitutes : Vector (Vector UInt8 16) 16 := #v[
 #v[0x63, 0x7c, 0x77, 0x7b, 0xf2, 0x6b, 0x6f, 0xc5, 0x30, 0x01, 0x67, 0x2b, 0xfe, 0xd7, 0xab, 0x76],
 #v[0xca, 0x82, 0xc9, 0x7d, 0xfa, 0x59, 0x47, 0xf0, 0xad, 0xd4, 0xa2, 0xaf, 0x9c, 0xa4, 0x72, 0xc0],
 #v[0xb7, 0xfd, 0x93, 0x26, 0x36, 0x3f, 0xf7, 0xcc, 0x34, 0xa5, 0xe5, 0xf1, 0x71, 0xd8, 0x31, 0x15],
 #v[0x04, 0xc7, 0x23, 0xc3, 0x18, 0x96, 0x05, 0x9a, 0x07, 0x12, 0x80, 0xe2, 0xeb, 0x27, 0xb2, 0x75],
 #v[0x09, 0x83, 0x2c, 0x1a, 0x1b, 0x6e, 0x5a, 0xa0, 0x52, 0x3b, 0xd6, 0xb3, 0x29, 0xe3, 0x2f, 0x84],
 #v[0x53, 0xd1, 0x00, 0xed, 0x20, 0xfc, 0xb1, 0x5b, 0x6a, 0xcb, 0xbe, 0x39, 0x4a, 0x4c, 0x58, 0xcf],
 #v[0xd0, 0xef, 0xaa, 0xfb, 0x43, 0x4d, 0x33, 0x85, 0x45, 0xf9, 0x02, 0x7f, 0x50, 0x3c, 0x9f, 0xa8],
 #v[0x51, 0xa3, 0x40, 0x8f, 0x92, 0x9d, 0x38, 0xf5, 0xbc, 0xb6, 0xda, 0x21, 0x10, 0xff, 0xf3, 0xd2],
 #v[0xcd, 0x0c, 0x13, 0xec, 0x5f, 0x97, 0x44, 0x17, 0xc4, 0xa7, 0x7e, 0x3d, 0x64, 0x5d, 0x19, 0x73],
 #v[0x60, 0x81, 0x4f, 0xdc, 0x22, 0x2a, 0x90, 0x88, 0x46, 0xee, 0xb8, 0x14, 0xde, 0x5e, 0x0b, 0xdb],
 #v[0xe0, 0x32, 0x3a, 0x0a, 0x49, 0x06, 0x24, 0x5c, 0xc2, 0xd3, 0xac, 0x62, 0x91, 0x95, 0xe4, 0x79],
 #v[0xe7, 0xc8, 0x37, 0x6d, 0x8d, 0xd5, 0x4e, 0xa9, 0x6c, 0x56, 0xf4, 0xea, 0x65, 0x7a, 0xae, 0x08],
 #v[0xba, 0x78, 0x25, 0x2e, 0x1c, 0xa6, 0xb4, 0xc6, 0xe8, 0xdd, 0x74, 0x1f, 0x4b, 0xbd, 0x8b, 0x8a],
 #v[0x70, 0x3e, 0xb5, 0x66, 0x48, 0x03, 0xf6, 0x0e, 0x61, 0x35, 0x57, 0xb9, 0x86, 0xc1, 0x1d, 0x9e],
 #v[0xe1, 0xf8, 0x98, 0x11, 0x69, 0xd9, 0x8e, 0x94, 0x9b, 0x1e, 0x87, 0xe9, 0xce, 0x55, 0x28, 0xdf],
 #v[0x8c, 0xa1, 0x89, 0x0d, 0xbf, 0xe6, 0x42, 0x68, 0x41, 0x99, 0x2d, 0x0f, 0xb0, 0x54, 0xbb, 0x16]]

/-- The byte that each byte has replaced, in rows by its upper half. -/
def inverseSubstitutes : Vector (Vector UInt8 16) 16 := #v[
 #v[0x52, 0x09, 0x6a, 0xd5, 0x30, 0x36, 0xa5, 0x38, 0xbf, 0x40, 0xa3, 0x9e, 0x81, 0xf3, 0xd7, 0xfb],
 #v[0x7c, 0xe3, 0x39, 0x82, 0x9b, 0x2f, 0xff, 0x87, 0x34, 0x8e, 0x43, 0x44, 0xc4, 0xde, 0xe9, 0xcb],
 #v[0x54, 0x7b, 0x94, 0x32, 0xa6, 0xc2, 0x23, 0x3d, 0xee, 0x4c, 0x95, 0x0b, 0x42, 0xfa, 0xc3, 0x4e],
 #v[0x08, 0x2e, 0xa1, 0x66, 0x28, 0xd9, 0x24, 0xb2, 0x76, 0x5b, 0xa2, 0x49, 0x6d, 0x8b, 0xd1, 0x25],
 #v[0x72, 0xf8, 0xf6, 0x64, 0x86, 0x68, 0x98, 0x16, 0xd4, 0xa4, 0x5c, 0xcc, 0x5d, 0x65, 0xb6, 0x92],
 #v[0x6c, 0x70, 0x48, 0x50, 0xfd, 0xed, 0xb9, 0xda, 0x5e, 0x15, 0x46, 0x57, 0xa7, 0x8d, 0x9d, 0x84],
 #v[0x90, 0xd8, 0xab, 0x00, 0x8c, 0xbc, 0xd3, 0x0a, 0xf7, 0xe4, 0x58, 0x05, 0xb8, 0xb3, 0x45, 0x06],
 #v[0xd0, 0x2c, 0x1e, 0x8f, 0xca, 0x3f, 0x0f, 0x02, 0xc1, 0xaf, 0xbd, 0x03, 0x01, 0x13, 0x8a, 0x6b],
 #v[0x3a, 0x91, 0x11, 0x41, 0x4f, 0x67, 0xdc, 0xea, 0x97, 0xf2, 0xcf, 0xce, 0xf0, 0xb4, 0xe6, 0x73],
 #v[0x96, 0xac, 0x74, 0x22, 0xe7, 0xad, 0x35, 0x85, 0xe2, 0xf9, 0x37, 0xe8, 0x1c, 0x75, 0xdf, 0x6e],
 #v[0x47, 0xf1, 0x1a, 0x71, 0x1d, 0x29, 0xc5, 0x89, 0x6f, 0xb7, 0x62, 0x0e, 0xaa, 0x18, 0xbe, 0x1b],
 #v[0xfc, 0x56, 0x3e, 0x4b, 0xc6, 0xd2, 0x79, 0x20, 0x9a, 0xdb, 0xc0, 0xfe, 0x78, 0xcd, 0x5a, 0xf4],
 #v[0x1f, 0xdd, 0xa8, 0x33, 0x88, 0x07, 0xc7, 0x31, 0xb1, 0x12, 0x10, 0x59, 0x27, 0x80, 0xec, 0x5f],
 #v[0x60, 0x51, 0x7f, 0xa9, 0x19, 0xb5, 0x4a, 0x0d, 0x2d, 0xe5, 0x7a, 0x9f, 0x93, 0xc9, 0x9c, 0xef],
 #v[0xa0, 0xe0, 0x3b, 0x4d, 0xae, 0x2a, 0xf5, 0xb0, 0xc8, 0xeb, 0xbb, 0x3c, 0x83, 0x53, 0x99, 0x61],
 #v[0x17, 0x2b, 0x04, 0x7e, 0xba, 0x77, 0xd6, 0x26, 0xe1, 0x69, 0x14, 0x63, 0x55, 0x21, 0x0c, 0x7d]]

/-- The entry of a table for a byte. -/
@[inline] def lookup (t : Vector (Vector UInt8 16) 16) (x : UInt8) : UInt8 :=
  (t.get (Fin.ofNat 16 (x.toNat / 16))).get (Fin.ofNat 16 x.toNat)

/-- Replaces a byte. -/
@[inline] def subByte (x : UInt8) : UInt8 := lookup substitutes x

/-- Puts the replaced byte back. -/
@[inline] def unsubByte (x : UInt8) : UInt8 := lookup inverseSubstitutes x

/-- Replaces the bytes of a column. -/
@[inline] def subColumn (c : Column) : Column :=
  ⟨subByte c.b0, subByte c.b1, subByte c.b2, subByte c.b3⟩

/-- Puts the bytes of a column back. -/
@[inline] def unsubColumn (c : Column) : Column :=
  ⟨unsubByte c.b0, unsubByte c.b1, unsubByte c.b2, unsubByte c.b3⟩

/-- Replaces the bytes of a block. -/
@[inline] def subBytes (s : Block) : Block :=
  ⟨subColumn s.c0, subColumn s.c1, subColumn s.c2, subColumn s.c3⟩

/-- Puts the bytes of a block back. -/
@[inline] def unsubBytes (s : Block) : Block :=
  ⟨unsubColumn s.c0, unsubColumn s.c1, unsubColumn s.c2, unsubColumn s.c3⟩

/-- Turns row `i` of a block left by `i` columns. -/
@[inline] def shiftRows (s : Block) : Block :=
  ⟨⟨s.c0.b0, s.c1.b1, s.c2.b2, s.c3.b3⟩, ⟨s.c1.b0, s.c2.b1, s.c3.b2, s.c0.b3⟩,
   ⟨s.c2.b0, s.c3.b1, s.c0.b2, s.c1.b3⟩, ⟨s.c3.b0, s.c0.b1, s.c1.b2, s.c2.b3⟩⟩

/-- Turns row `i` of a block right by `i` columns. -/
@[inline] def unshiftRows (s : Block) : Block :=
  ⟨⟨s.c0.b0, s.c3.b1, s.c2.b2, s.c1.b3⟩, ⟨s.c1.b0, s.c0.b1, s.c3.b2, s.c2.b3⟩,
   ⟨s.c2.b0, s.c1.b1, s.c0.b2, s.c3.b3⟩, ⟨s.c3.b0, s.c2.b1, s.c1.b2, s.c0.b3⟩⟩

/-- A byte as a polynomial times the indeterminate; a top bit that is pushed out comes back as the
lower terms of the reducing polynomial. -/
@[inline] def double (x : UInt8) : UInt8 :=
  let top := x >>> 7
  (x <<< 1) ^^^ top ^^^ (top <<< 1) ^^^ (top <<< 3) ^^^ (top <<< 4)

/-- Multiplies a column by the fixed polynomial of the cipher. -/
@[inline] def mixColumn (c : Column) : Column :=
  let t := c.b0 ^^^ c.b1 ^^^ c.b2 ^^^ c.b3
  ⟨c.b0 ^^^ t ^^^ double (c.b0 ^^^ c.b1), c.b1 ^^^ t ^^^ double (c.b1 ^^^ c.b2),
   c.b2 ^^^ t ^^^ double (c.b2 ^^^ c.b3), c.b3 ^^^ t ^^^ double (c.b3 ^^^ c.b0)⟩

/-- Divides a column by the fixed polynomial: the square of the polynomial differs from one by a
multiple of four, which is taken off first. -/
@[inline] def unmixColumn (c : Column) : Column :=
  let u := double (double (c.b0 ^^^ c.b2))
  let v := double (double (c.b1 ^^^ c.b3))
  mixColumn ⟨c.b0 ^^^ u, c.b1 ^^^ v, c.b2 ^^^ u, c.b3 ^^^ v⟩

/-- Mixes the columns of a block. -/
@[inline] def mixColumns (s : Block) : Block :=
  ⟨mixColumn s.c0, mixColumn s.c1, mixColumn s.c2, mixColumn s.c3⟩

/-- Unmixes the columns of a block. -/
@[inline] def unmixColumns (s : Block) : Block :=
  ⟨unmixColumn s.c0, unmixColumn s.c1, unmixColumn s.c2, unmixColumn s.c3⟩

/-- The last four columns of a chain in which each column is added to the one before it. -/
@[inline] def chainColumns (start : Column) (k : Block) : Block :=
  let c0 := k.c0.xor start
  let c1 := k.c1.xor c0
  let c2 := k.c2.xor c1
  ⟨c0, c1, c2, k.c3.xor c2⟩

/-- The two round keys after two given ones. -/
def nextKeys (constant : UInt8) (k : Block × Block) : Block × Block :=
  let last := k.2.c3
  let turned := subColumn ⟨last.b1, last.b2, last.b3, last.b0⟩
  let even := chainColumns { turned with b0 := turned.b0 ^^^ constant } k.1
  (even, chainColumns (subColumn even.c3) k.2)

/-- `2 * n` round keys from the two given ones on. -/
def keyPairs : Nat → UInt8 → Block × Block → List Block
  | 0, _, _ => []
  | n + 1, constant, k => k.1 :: k.2 :: keyPairs n (double constant) (nextKeys constant k)

/-- The fifteen round keys of a key. -/
def roundKeys (key : Block × Block) : List Block := (keyPairs 8 1 key).take 15

/-- The rounds after the first key; the last one mixes no columns. -/
def encryptRounds : List Block → Block → Block
  | [], s => s
  | [k], s => (shiftRows (subBytes s)).xor k
  | k :: ks, s => encryptRounds ks ((mixColumns (shiftRows (subBytes s))).xor k)

/-- The rounds undone. -/
def decryptRounds : List Block → Block → Block
  | [], s => s
  | [k], s => unsubBytes (unshiftRows (s.xor k))
  | k :: ks, s => unsubBytes (unshiftRows (unmixColumns ((decryptRounds ks s).xor k)))

/-- Encrypts a block with given round keys. -/
def encryptWith : List Block → Block → Block
  | [], s => s
  | k :: ks, s => encryptRounds ks (s.xor k)

/-- Decrypts a block with given round keys. -/
def decryptWith : List Block → Block → Block
  | [], s => s
  | k :: ks, s => (decryptRounds ks s).xor k

theorem unsubByte_subByte (x : UInt8) : unsubByte (subByte x) = x := by
  have h : ∀ i : Fin 256, unsubByte (subByte (UInt8.ofFin i)) = UInt8.ofFin i := by
    decide +kernel
  exact h x.toFin

theorem unsubBytes_subBytes (s : Block) : unsubBytes (subBytes s) = s := by
  simp [unsubBytes, subBytes, unsubColumn, subColumn, unsubByte_subByte]

theorem unshiftRows_shiftRows (s : Block) : unshiftRows (shiftRows s) = s := rfl

/-- Doubling is additive. -/
theorem double_xor (x y : UInt8) : double (x ^^^ y) = double x ^^^ double y := by
  simp only [double, UInt8.shiftLeft_xor, UInt8.shiftRight_xor]
  ac_rfl

private theorem xor_left_comm (x y z : UInt8) : x ^^^ (y ^^^ z) = y ^^^ (x ^^^ z) := by
  rw [← UInt8.xor_assoc, UInt8.xor_comm x, UInt8.xor_assoc]

private theorem xor_cancel (x y : UInt8) : x ^^^ (x ^^^ y) = y := by
  rw [← UInt8.xor_assoc, UInt8.xor_self, UInt8.zero_xor]

/-- One byte of a column that was mixed, corrected and mixed again, where `t` is the sum of the
column and `u`, `v` are the corrections. -/
private theorem unmix_entry (a b c d t u v : UInt8) (ht : a ^^^ b ^^^ c ^^^ d = t)
    (hu : u = double (double (a ^^^ c ^^^ double t)))
    (hv : v = double (double (b ^^^ d ^^^ double t))) :
    ((a ^^^ t ^^^ double (a ^^^ b)) ^^^ u) ^^^ t ^^^
      double (((a ^^^ t ^^^ double (a ^^^ b)) ^^^ u) ^^^ ((b ^^^ t ^^^ double (b ^^^ c)) ^^^ v))
      = a := by
  have huv : u ^^^ v = double (double t) := by
    rw [hu, hv, ← double_xor, ← double_xor]
    congr 2
    rw [← ht]
    simp only [UInt8.xor_assoc, UInt8.xor_comm, xor_left_comm, UInt8.xor_self, UInt8.xor_zero]
  have hin : ((a ^^^ t ^^^ double (a ^^^ b)) ^^^ u) ^^^ ((b ^^^ t ^^^ double (b ^^^ c)) ^^^ v)
      = (a ^^^ b) ^^^ double (a ^^^ c) ^^^ (u ^^^ v) := by
    simp only [double_xor, UInt8.xor_assoc, UInt8.xor_comm, xor_left_comm, xor_cancel]
  rw [hin, huv, hu]
  simp only [double_xor, UInt8.xor_comm, xor_left_comm, UInt8.xor_self, UInt8.xor_zero]

/-- Unmixing undoes mixing: by additivity each byte of the result is a sum of repeated doubles of
the four bytes, and all of them but one byte cancel in pairs. -/
theorem unmixColumn_mixColumn (c : Column) : unmixColumn (mixColumn c) = c := by
  obtain ⟨a, b, c, d⟩ := c
  obtain ⟨t, ht⟩ : ∃ t, a ^^^ b ^^^ c ^^^ d = t := ⟨_, rfl⟩
  have h₁ : b ^^^ c ^^^ d ^^^ a = t := by rw [← ht]; ac_rfl
  have h₂ : c ^^^ d ^^^ a ^^^ b = t := by rw [← ht]; ac_rfl
  have h₃ : d ^^^ a ^^^ b ^^^ c = t := by rw [← ht]; ac_rfl
  have pair : ∀ x y r s : UInt8, x ^^^ y ^^^ r ^^^ s = t →
      (x ^^^ t ^^^ double (x ^^^ y)) ^^^ (r ^^^ t ^^^ double (r ^^^ s))
        = x ^^^ r ^^^ double t := fun x y r s h => by
    rw [← h]
    simp only [double_xor, UInt8.xor_assoc, UInt8.xor_comm, xor_left_comm, xor_cancel]
  have corrected : ∀ p q r s u v : UInt8, (p ^^^ u) ^^^ (q ^^^ v) ^^^ (r ^^^ u) ^^^ (s ^^^ v)
      = (p ^^^ r) ^^^ (q ^^^ s) := fun p q r s u v => by
    simp only [UInt8.xor_comm, xor_left_comm, xor_cancel, UInt8.xor_self,
      UInt8.xor_zero]
  have sum : (a ^^^ c ^^^ double t) ^^^ (b ^^^ d ^^^ double t) = t := by
    rw [← ht]
    simp only [double_xor, UInt8.xor_assoc, UInt8.xor_comm, xor_left_comm, UInt8.xor_self,
      UInt8.xor_zero]
  simp only [unmixColumn, mixColumn, ht, corrected, pair a b c d ht, pair b c d a h₁, sum,
    Column.mk.injEq]
  have hc : ∀ x y z : UInt8, x ^^^ y ^^^ z = y ^^^ x ^^^ z := fun x y z => by
    rw [UInt8.xor_comm x]
  exact ⟨unmix_entry a b c d t _ _ ht rfl rfl, unmix_entry b c d a t _ _ h₁ rfl (by rw [hc]),
    unmix_entry c d a b t _ _ h₂ (by rw [hc]) (by rw [hc]),
    unmix_entry d a b c t _ _ h₃ (by rw [hc]) rfl⟩

theorem unmixColumns_mixColumns (s : Block) : unmixColumns (mixColumns s) = s := by
  simp [unmixColumns, mixColumns, unmixColumn_mixColumn]

theorem decryptRounds_encryptRounds : ∀ (ks : List Block) (s : Block),
    decryptRounds ks (encryptRounds ks s) = s
  | [], _ => rfl
  | [k], s => by
    simp [decryptRounds, encryptRounds, Block.xor_xor_cancel, unshiftRows_shiftRows,
      unsubBytes_subBytes]
  | k :: k' :: ks, s => by
    simp [decryptRounds, encryptRounds, decryptRounds_encryptRounds (k' :: ks),
      Block.xor_xor_cancel, unmixColumns_mixColumns, unshiftRows_shiftRows, unsubBytes_subBytes]

theorem decryptWith_encryptWith : ∀ (ks : List Block) (s : Block),
    decryptWith ks (encryptWith ks s) = s
  | [], _ => rfl
  | k :: ks, s => by
    simp [decryptWith, encryptWith, decryptRounds_encryptRounds, Block.xor_xor_cancel]

/-- The cipher for a key of two blocks. -/
def cipher (key : Block × Block) : BlockCipher :=
  let ks := roundKeys key
  { encrypt := encryptWith ks
    decrypt := decryptWith ks
    decrypt_encrypt := decryptWith_encryptWith ks }

/-- A block under the key of the bytes from 0 to 31, as the standard of the cipher gives it. -/
example :
    (cipher (⟨⟨0, 1, 2, 3⟩, ⟨4, 5, 6, 7⟩, ⟨8, 9, 10, 11⟩, ⟨12, 13, 14, 15⟩⟩,
      ⟨⟨16, 17, 18, 19⟩, ⟨20, 21, 22, 23⟩, ⟨24, 25, 26, 27⟩, ⟨28, 29, 30, 31⟩⟩)).encrypt
      ⟨⟨0x00, 0x11, 0x22, 0x33⟩, ⟨0x44, 0x55, 0x66, 0x77⟩, ⟨0x88, 0x99, 0xaa, 0xbb⟩,
        ⟨0xcc, 0xdd, 0xee, 0xff⟩⟩ =
    ⟨⟨0x8e, 0xa2, 0xb7, 0xca⟩, ⟨0x51, 0x67, 0x45, 0xbf⟩, ⟨0xea, 0xfc, 0x49, 0x90⟩,
      ⟨0x4b, 0x49, 0x60, 0x89⟩⟩ := by
  decide +kernel

end Aes256
end ChatBackup
