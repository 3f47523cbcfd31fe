import ChatBackup.Channel.Sink
import ChatBackup.Channel.Source
import ChatBackup.Crypto.Cbc

/-!
# Encrypting and decrypting on the way

`CbcWriter` encrypts what is written to it, whole blocks as they fill up, and writes the padded
last block when it is finished. `CbcReader` decrypts what it reads and always holds the last whole
block back until its source has ended, since only that block carries padding.
-/

namespace ChatBackup

/-! ## Encrypting -/

/-- A sink that encrypts on the way to another sink. -/
structure CbcWriter (σ : Type) where
  /-- The sink for the ciphertext. -/
  inner : σ
  /-- The cipher on single blocks. -/
  cipher : BlockCipher
  /-- The encrypted block before the next one. -/
  previous : Block
  /-- Bytes that do not make a whole block yet. -/
  pending : Bytes := []

namespace CbcWriter

variable {σ : Type} [Sink σ]

/-- A writer with nothing written yet. -/
def start (inner : σ) (cipher : BlockCipher) (iv : Block) : CbcWriter σ :=
  { inner, cipher, previous := iv }

/-- Takes bytes and sends all blocks that are whole now. They are encrypted where they stand, so
that if sending fails the chain has moved on and the encrypted bytes stay pending. -/
def push (w : CbcWriter σ) (b : Bytes) : Except Failure Unit × CbcWriter σ :=
  let pending := w.pending ++ b
  let whole := pending.length - pending.length % blockLength
  if whole = 0 then (.ok (), { w with pending })
  else
    let encrypted := Cbc.encryptChain w.cipher w.previous (Block.ofBytes (pending.take whole))
    let rest := pending.drop whole
    let previous := Cbc.lastOf w.previous encrypted
    -- the chain goes on from the last block, whether it can be sent or not
    match Sink.writeAll w.inner (Block.join encrypted) with
    | (.ok (), inner) => (.ok (), { w with inner, previous, pending := rest })
    | (.error e, inner) =>
      (.error e, { w with inner, previous, pending := Block.join encrypted ++ rest })

instance : Sink (CbcWriter σ) where
  write w b :=
    match push w b with
    | (.ok (), w) => (.done b.length, w)
    | (.error e, w) => (.failed e, w)
  flush w :=
    match Sink.flush w.inner with
    | (r, inner) => (r, { w with inner })
  patience _ := 0
  write_le w b n h := by
    revert h
    split
    · intro h
      simp only [Outcome.done.injEq] at h
      omega
    · simp

/-- Sends the last block, padded, and flushes. A block that is full already leaves no room for
padding. With more than a block pending the bytes do not even fit into the buffer of the last block:
there the operation panics, which `Failure.cipherOverrun` stands for. -/
def finish (w : CbcWriter σ) : Except Failure Unit × σ :=
  if blockLength < w.pending.length then (.error (.cipherOverrun w.pending.length), w.inner)
  else if w.pending.length = blockLength then (.error .cipherPadding, w.inner)
  else
    let last := Cbc.encryptChain w.cipher w.previous (Block.ofBytes (Cbc.pad w.pending))
    match Sink.writeAll w.inner (Block.join last) with
    | (.ok (), inner) => Sink.flush inner
    | (.error e, inner) => (.error e, inner)

end CbcWriter

/-! ## Decrypting -/

/-- A source that decrypts on the way from another source. -/
structure CbcReader (σ : Type) where
  /-- The source of the ciphertext. -/
  inner : σ
  /-- The cipher on single blocks. -/
  cipher : BlockCipher
  /-- The encrypted block before the held bytes. -/
  previous : Block
  /-- How much ciphertext is fetched at a time. -/
  chunk : Nat
  /-- Ciphertext that is not decrypted yet. -/
  held : Bytes := []
  /-- Decrypted bytes that are not handed out yet. -/
  out : Bytes := []
  /-- Whether the end of the ciphertext was met. -/
  ended : Bool := false

namespace CbcReader

variable {σ : Type} [Source σ]

/-- A reader with nothing read yet. -/
def start (inner : σ) (cipher : BlockCipher) (iv : Block) (bufferLength : Nat) : CbcReader σ :=
  { inner, cipher, previous := iv, chunk := max bufferLength blockLength }

/-- At the end of the ciphertext exactly whole blocks must be held, the last of them padded. -/
def finish (r : CbcReader σ) : Except Failure Unit × CbcReader σ :=
  let r := { r with ended := true }
  if r.held.isEmpty || r.held.length % blockLength != 0 then
    (.error (.cipherUnaligned r.held.length), r)
  else
    let plain := Block.join (Cbc.decryptChain r.cipher r.previous (Block.ofBytes r.held))
    let before := plain.take (plain.length - blockLength)
    match Cbc.unpad (plain.drop (plain.length - blockLength)) with
    | some last => (.ok (), { r with held := [], out := r.out ++ before ++ last })
    | none => (.error .cipherPadding, { r with held := [] })

/-- How many of `n` bytes are held back: a partial block, since more must follow it, or else the
last whole one. -/
def keep (n : Nat) : Nat := if n % blockLength = 0 then blockLength else n % blockLength

/-- Fetches a chunk and decrypts what need not be held back. A failure loses what was read of the
chunk. -/
def fill (r : CbcReader σ) : Except Failure Unit × CbcReader σ :=
  let chunk := Source.gather r.inner r.chunk
  let r := { r with inner := chunk.source }
  match chunk.failure, chunk.got with
  -- the bytes of the chunk that came before the failure are gone
  | some e, _ => (.error e, r)
  | none, [] => finish r
  | none, got =>
    let held := r.held ++ got
    let ready := held.length - keep held.length
    let blocks := Block.ofBytes (held.take ready)
    let plain := Block.join (Cbc.decryptChain r.cipher r.previous blocks)
    (.ok (), { r with
      held := held.drop ready
      previous := Cbc.lastOf r.previous blocks
      out := r.out ++ plain })

/-- Fetches until something can be handed out or the end was met. A round that brings nothing out
lets the held block grow, so `fuel > blockLength` rounds always suffice. -/
def fillRounds : Nat → CbcReader σ → Except Failure Unit × CbcReader σ
  | 0, r => (.ok (), r)
  | fuel + 1, r =>
    if !r.out.isEmpty || r.ended then (.ok (), r)
    else
      match fill r with
      | (.ok (), r) => fillRounds fuel r
      | (.error e, r) => (.error e, r)

/-- One read. -/
def readOnce (r : CbcReader σ) (n : Nat) : Outcome Bytes × CbcReader σ :=
  if n = 0 then (.done [], r)
  else
    match fillRounds (blockLength + 2) r with
    | (.ok (), r) => (.done (r.out.take n), { r with out := r.out.drop n })
    | (.error e, r) => (.failed e, r)

instance : Source (CbcReader σ) where
  read := readOnce
  turns r := r.out.length + r.held.length + r.chunk * Source.turns r.inner
  read_le r n b h := by
    unfold readOnce at h
    split at h
    · simp only [Outcome.done.injEq] at h
      subst h; simp
    · split at h
      · simp only [Outcome.done.injEq] at h
        subst h
        simp only [List.length_take]
        omega
      · simp at h

end CbcReader
end ChatBackup
