import ChatBackup.Backup.Reader
import ChatBackup.Backup.Settings
import ChatBackup.Crypto.CbcStage
import ChatBackup.Crypto.Key
import ChatBackup.Crypto.Mac
import ChatBackup.Gzip.Reader

/-!
# Reading an encrypted backup

The whole source is authenticated before any of it is decrypted, which takes a source that can be
read twice.
-/

namespace ChatBackup

/-- The stages that the bytes of an encrypted backup pass before they are records. -/
abbrev DecryptStages (σ : Type) := Buffered (GzipReader (CbcReader (Limited σ)))

/-- An encrypted backup that is being read. -/
abbrev EncryptedReader (σ η φ : Type) := BackupReader (DecryptStages σ) η φ

namespace EncryptedReader

variable {σ η φ : Type} [SeekableSource σ] [Record η] [Record φ]

/-- Checks the authentication code of a whole source and tells how long the part before it is. -/
def authenticate (source : σ) (key : BackupKey) (bufferLength : Nat) :
    Except BackupError Nat × σ :=
  match SeekableSource.toEnd source with
  | (.error e, source) => (.error (.io e), source)
  | (.ok length, source) =>
    if length < minEncryptedLength then (.error (.crypto (.streamTooShort length)), source)
    else
      match SeekableSource.toStart source with
      | (.error e, source) => (.error (.io e), source)
      | (.ok (), source) =>
        let bodyLength := length - Sha256.digestLength
        match verifyMac source key.macKey bodyLength bufferLength with
        | (.error e, source) => (.error e, source)
        | (.ok (), source) => (.ok bodyLength, source)

/-- The stages that decrypt and decompress a source whose part before the authentication code has
the length given. -/
def decrypt (source : σ) (key : BackupKey) (bodyLength bufferLength : Nat) :
    Except Failure (DecryptStages σ) :=
  match SeekableSource.toStart source with
  | (.error e, _) => .error e
  | (.ok (), source) =>
    match Source.gatherExactly source blockLength with
    | (.error e, _) => .error e
    | (.ok iv, source) =>
      let ciphertext : Limited σ := { inner := source, left := bodyLength - blockLength }
      let cbc := CbcReader.start ciphertext key.cipher (Block.first iv) bufferLength
      .ok { inner := GzipReader.start cbc, capacity := bufferLength }

/-- Opens an encrypted backup. -/
def start (source : σ) (key : BackupKey) (settings : ReadSettings) :
    Except BackupError (EncryptedReader σ η φ) :=
  match settings.check with
  | .error e => .error (.settings e)
  | .ok () =>
    match authenticate source key settings.bufferLength with
    | (.error e, _) => .error e
    | (.ok bodyLength, source) =>
      match decrypt source key bodyLength settings.bufferLength with
      | .error e => .error (.io e)
      -- from here on the bytes are known to be those that were written
      | .ok stages => BackupReader.start stages settings.maxRecordLength

end EncryptedReader
end ChatBackup
