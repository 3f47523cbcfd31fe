import ChatBackup.Bytes
import ChatBackup.Crypto.Aes

/-!
# Chained blocks

Chaining adds the previous encrypted block to each block before it is encrypted; the first block
takes the initialisation vector instead. The last block is padded: `k` bytes that are missing are
filled with the byte `k`, and a whole block of sixteens follows if none is missing.

The main statements: `decryptChain_encryptChain`, the chain is undone block by block, and
`unpad_pad`, padding is taken off again.
-/

namespace ChatBackup

/-- The number of bytes in a block. -/
def blockLength : Nat := 16

namespace Block

/-- The bytes of a block. -/
def toBytes (b : Block) : Bytes :=
  [b.c0.b0, b.c0.b1, b.c0.b2, b.c0.b3, b.c1.b0, b.c1.b1, b.c1.b2, b.c1.b3,
   b.c2.b0, b.c2.b1, b.c2.b2, b.c2.b3, b.c3.b0, b.c3.b1, b.c3.b2, b.c3.b3]

/-- The block of zeros. -/
def zero : Block := ⟨⟨0, 0, 0, 0⟩, ⟨0, 0, 0, 0⟩, ⟨0, 0, 0, 0⟩, ⟨0, 0, 0, 0⟩⟩

/-- The whole blocks at the front of a byte string. -/
def ofBytes : Bytes → List Block
  | a0 :: a1 :: a2 :: a3 :: b0 :: b1 :: b2 :: b3 :: c0 :: c1 :: c2 :: c3 :: d0 :: d1 :: d2 :: d3
      :: rest =>
    ⟨⟨a0, a1, a2, a3⟩, ⟨b0, b1, b2, b3⟩, ⟨c0, c1, c2, c3⟩, ⟨d0, d1, d2, d3⟩⟩ :: ofBytes rest
  | _ => []

/-- The first block of a byte string, or the block of zeros if there is none. -/
def first (b : Bytes) : Block := (ofBytes b).headD zero

/-- The bytes of blocks, one after another. -/
def join (bs : List Block) : Bytes := bs.flatMap toBytes

@[simp] theorem length_toBytes (b : Block) : b.toBytes.length = blockLength := rfl

theorem ofBytes_toBytes_append (b : Block) (rest : Bytes) :
    ofBytes (b.toBytes ++ rest) = b :: ofBytes rest := rfl

/-- Blocks read back from their bytes. -/
theorem ofBytes_join : ∀ bs : List Block, ofBytes (join bs) = bs
  | [] => rfl
  | b :: bs => by
    rw [join, List.flatMap_cons, ofBytes_toBytes_append]
    exact congrArg _ (ofBytes_join bs)

end Block

namespace Cbc

/-- Encrypts blocks in a chain that starts after `previous`. -/
def encryptChain (c : BlockCipher) : Block → List Block → List Block
  | _, [] => []
  | previous, b :: bs =>
    let e := c.encrypt (b.xor previous)
    e :: encryptChain c e bs

/-- Decrypts blocks of a chain that starts after `previous`. -/
def decryptChain (c : BlockCipher) : Block → List Block → List Block
  | _, [] => []
  | previous, e :: es => (c.decrypt e).xor previous :: decryptChain c e es

/-- The block that a chain goes on from after the encrypted blocks given. -/
def lastOf (previous : Block) (es : List Block) : Block := es.getLast?.getD previous

/-- Fills a string shorter than a block up to a block. -/
def pad (b : Bytes) : Bytes :=
  let missing := blockLength - b.length
  b ++ List.replicate missing (UInt8.ofNat missing)

/-- Takes the filling off a block; nothing if it is not a valid one. -/
def unpad (b : Bytes) : Option Bytes :=
  let missing := (b.getLast?.getD 0).toNat
  if missing = 0 || blockLength < missing then none
  else
    let filling := b.drop (b.length - missing)
    if filling.all (·.toNat = missing) then some (b.take (b.length - missing)) else none

/-- A chain is undone block by block. -/
theorem decryptChain_encryptChain (c : BlockCipher) : ∀ (previous : Block) (bs : List Block),
    decryptChain c previous (encryptChain c previous bs) = bs
  | _, [] => rfl
  | previous, b :: bs => by
    simp [encryptChain, decryptChain, c.decrypt_encrypt, Block.xor_xor_cancel,
      decryptChain_encryptChain c _ bs]

/-- The filling is taken off again. -/
theorem unpad_pad (b : Bytes) (h : b.length < blockLength) : unpad (pad b) = some b := by
  obtain ⟨k, hk⟩ : ∃ k, blockLength - b.length = k + 1 := ⟨blockLength - b.length - 1, by omega⟩
  have h16 : blockLength = 16 := rfl
  have hto : (UInt8.ofNat (k + 1)).toNat = k + 1 := by simp; omega
  have hlast : (pad b).getLast? = some (UInt8.ofNat (k + 1)) := by
    simp only [pad, hk]
    rw [List.replicate_succ', ← List.append_assoc, List.getLast?_concat]
  have hsub : (pad b).length - (k + 1) = b.length := by
    simp only [pad, hk, List.length_append, List.length_replicate]; omega
  unfold unpad
  simp only [hlast, Option.getD_some, hto, hsub]
  rw [if_neg (by simp; omega)]
  simp only [pad, hk, List.drop_left, List.take_left]
  rw [if_pos]
  simp only [List.all_replicate, hto]
  simp

end Cbc
end ChatBackup
