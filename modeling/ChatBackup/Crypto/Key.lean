import ChatBackup.Crypto.Cbc
import ChatBackup.Crypto.Hmac
import ChatBackup.Error
import ChatBackup.Wire.Field

/-!
# Keys of a backup

A backup is encrypted under one key and authenticated under another, both of 32 bytes. They are
given apart, as one string of derived material with the authentication key in front, or through a
`KeyDerivation` from a master key and an account.
-/

namespace ChatBackup

/-- The number of bytes in each of the two keys. -/
def keyLength : Nat := 32

/-- The two keys of a backup. -/
structure BackupKey where
  cipherKey : Bytes
  macKey : Bytes
  length_cipherKey : cipherKey.length = keyLength
  length_macKey : macKey.length = keyLength

/-- Derives the keys of a backup from a master key and an account. -/
abbrev KeyDerivation := Bytes → Bytes → Except CryptoError BackupKey

namespace BackupKey

/-- Takes two strings as keys if both have the right length; the cipher key is looked at first. -/
def ofParts (cipherKey macKey : Bytes) : Except CryptoError BackupKey :=
  if hc : cipherKey.length = keyLength then
    if hm : macKey.length = keyLength then .ok ⟨cipherKey, macKey, hc, hm⟩
    else .error (.invalidKeyLength keyLength macKey.length)
  else .error (.invalidKeyLength keyLength cipherKey.length)

/-- Takes derived key material apart: the authentication key comes first. -/
def ofMaterial (material : Bytes) : Except CryptoError BackupKey :=
  if material.length = 2 * keyLength then
    ofParts (material.drop keyLength) (material.take keyLength)
  else .error (.invalidKeyLength (2 * keyLength) material.length)

/-- The block cipher under the cipher key. -/
def cipher (k : BackupKey) : BlockCipher :=
  Aes256.cipher (Block.first k.cipherKey, Block.first (k.cipherKey.drop blockLength))

/-- What may be shown of a key: nothing but its name. -/
def shown (_ : BackupKey) : String := "MessageBackupKey \x7b .. \x7d"

end BackupKey

namespace KeyDerivation

/-- The master key and the account, one after the other, are the key material. -/
def concat : KeyDerivation := fun master account => BackupKey.ofMaterial (master ++ account)

/-- The purpose that key material for backup streams is drawn for. -/
def streamPurpose : Bytes := Field.textBytes "backup stream keys"

/-- The key material is drawn from the master key with the account as salt. -/
def hkdf : KeyDerivation := fun master account =>
  BackupKey.ofMaterial (Hkdf.derive account master streamPurpose (2 * keyLength))

/-- The deriver with a given name; an unknown one always fails with its name. -/
def named : String → KeyDerivation
  | "concat" => concat
  | "hkdf" => hkdf
  | name => fun _ _ => .error (.derivation name)

end KeyDerivation
end ChatBackup
