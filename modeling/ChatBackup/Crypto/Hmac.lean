import ChatBackup.Crypto.Sha256

/-!
# Keyed hashes and derived keys

`Hmac` is the keyed hash over SHA-256, `Hkdf.derive` draws key material of any length from a secret
with it.
-/

namespace ChatBackup

/-- A keyed hash in progress. -/
structure Hmac where
  /-- The hash of the inner key block and the message so far. -/
  inner : Sha256.Context
  /-- The hash of the outer key block. -/
  outer : Sha256.Context

namespace Hmac

/-- A key as a block: a long one is hashed, a short one filled up with zeros. -/
def keyBlock (key : Bytes) : Bytes :=
  let k := if key.length ≤ Sha256.blockLength then key else Sha256.hash key
  k ++ List.replicate (Sha256.blockLength - k.length) 0

/-- Starts a keyed hash. -/
def start (key : Bytes) : Hmac :=
  let k := keyBlock key
  { inner := Sha256.update {} (k.map (· ^^^ 0x36))
    outer := Sha256.update {} (k.map (· ^^^ 0x5c)) }

/-- Takes bytes into the keyed hash. -/
def update (m : Hmac) (b : Bytes) : Hmac := { m with inner := Sha256.update m.inner b }

/-- The keyed hash of the bytes taken so far. -/
def digest (m : Hmac) : Bytes := Sha256.digest (Sha256.update m.outer (Sha256.digest m.inner))

/-- The keyed hash of a string. -/
def hash (key b : Bytes) : Bytes := digest (update (start key) b)

/-- Taking two strings one after another is taking their concatenation. -/
theorem update_append (m : Hmac) (x y : Bytes) : update m (x ++ y) = update (update m x) y := by
  simp [update, Sha256.update_append]

@[simp] theorem update_nil (m : Hmac) : update m [] = m := rfl

@[simp] theorem length_digest (m : Hmac) : (digest m).length = Sha256.digestLength := by
  simp [digest]

theorem length_hash (key b : Bytes) : (hash key b).length = Sha256.digestLength :=
  length_digest _

/-- The keyed hash of a question under a short key, one of its published test values. -/
example : hash "Jefe".toUTF8.toList "what do ya want for nothing?".toUTF8.toList = [
    0x5b, 0xdc, 0xc1, 0x46, 0xbf, 0x60, 0x75, 0x4e, 0x6a, 0x04, 0x24, 0x26, 0x08, 0x95, 0x75, 0xc7,
    0x5a, 0x00, 0x3f, 0x08, 0x9d, 0x27, 0x39, 0x83, 0x9d, 0xec, 0x58, 0xb9, 0x64, 0xec, 0x38, 0x43]
    := by
  decide +kernel

end Hmac

namespace Hkdf

/-- `n` blocks of key material, each the keyed hash of the one before it, the purpose and its own
number. -/
def blocks (secret info : Bytes) : Nat → UInt8 → Bytes → Bytes
  | 0, _, _ => []
  | n + 1, i, previous =>
    let t := Hmac.hash secret (previous ++ info ++ [i])
    t ++ blocks secret info n (i + 1) t

/-- `length` bytes of key material for a purpose, drawn from a secret and a salt. -/
def derive (salt secret info : Bytes) (length : Nat) : Bytes :=
  let count := (length + Sha256.digestLength - 1) / Sha256.digestLength
  (blocks (Hmac.hash salt secret) info count 1 []).take length

end Hkdf
end ChatBackup
