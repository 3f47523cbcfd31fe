import ChatBackup.Channel.Failure
import ChatBackup.Wire.Key

/-!
# Errors of a backup

The failures of each part of a backup and `BackupError`, which joins them. Each has its words in a
function `message`. The clean end of a backup is no error anywhere.
-/

namespace ChatBackup

/-- Where a record was cut short. -/
inductive RecordCut where
  /-- Inside the length that opens the record. -/
  | inLength (bytesRead : Nat)
  /-- Inside the record itself. -/
  | inPayload (expected actual : Nat)
  deriving DecidableEq, Repr

/-- The words for a record that was cut. -/
def RecordCut.message : RecordCut → String
  | inLength n => "length prefix ended after " ++ toString n ++ " bytes"
  | inPayload expected actual =>
    "expected " ++ toString expected ++ " payload bytes, got " ++ toString actual

/-- Why a record cannot be had from a stream. -/
inductive RecordError where
  | truncated (cut : RecordCut)
  | decode (error : DecodeError)
  | lengthOverflow
  | tooLarge (length max : Nat)
  deriving DecidableEq, Repr

/-- The words for a record's error. -/
def RecordError.message : RecordError → String
  | truncated cut => "truncated record: " ++ cut.message
  | decode error => "malformed record: " ++ error.message
  | lengthOverflow => "length prefix does not fit in 64 bits"
  | tooLarge length max => "record too large: " ++ toString length ++ " > " ++ toString max

/-- Why keys or authentication failed. -/
inductive CryptoError where
  | invalidKeyLength (expected actual : Nat)
  | macMismatch
  | streamTooShort (length : Nat)
  | derivation (reason : String)
  deriving DecidableEq, Repr

/-- The shortest encrypted backup: an initialisation vector, one block and the authentication
code. -/
def minEncryptedLength : Nat := 64

/-- The words for a cryptographic error. -/
def CryptoError.message : CryptoError → String
  | invalidKeyLength expected actual =>
    "invalid key length: expected=" ++ toString expected ++ ", actual=" ++ toString actual
  | macMismatch => "backup MAC mismatch"
  | streamTooShort length =>
    "encrypted stream too short: " ++ toString length ++ " bytes, need at least "
      ++ toString minEncryptedLength
  | derivation reason => "key derivation failed: " ++ reason

/-- Why a writer refuses a call. -/
inductive OrderError where
  | headerAlreadyWritten
  | headerNotWritten
  | closed
  | failed
  deriving DecidableEq, Repr

/-- The words for a refused call. -/
def OrderError.message : OrderError → String
  | headerAlreadyWritten => "header already written"
  | headerNotWritten => "header must be written first"
  | closed => "writer is closed"
  | failed => "writer failed earlier and cannot be used"

/-- Why settings are not valid. -/
inductive SettingsError where
  | compressionLevel (level : Nat)
  | maxRecordLength
  | bufferLength
  deriving DecidableEq, Repr

/-- The words for invalid settings. -/
def SettingsError.message : SettingsError → String
  | compressionLevel level => "compression_level " ++ toString level ++ " outside 0..=9"
  | maxRecordLength => "max_record_len must be > 0"
  | bufferLength => "buffer_len must be > 0"

/-- Why writing or reading a backup failed. -/
inductive BackupError where
  | io (failure : Failure)
  | record (error : RecordError)
  | crypto (error : CryptoError)
  | order (error : OrderError)
  | settings (error : SettingsError)
  | noSuchElement
  deriving DecidableEq, Repr

namespace BackupError

/-- The words for an error, opened by the part of the backup that it comes from. -/
def message : BackupError → String
  | io failure => "I/O error: " ++ failure.message
  | record error => "frame error: " ++ error.message
  | crypto error => "crypto error: " ++ error.message
  | order error => "state error: " ++ error.message
  | settings error => "invalid configuration: " ++ error.message
  | noSuchElement => "no more frames"

/-- Whether the backup failed authentication. -/
def failsAuthentication : BackupError → Bool
  | crypto .macMismatch => true
  | _ => false

/-- Whether a record was cut short. -/
def cutsRecord : BackupError → Bool
  | record (.truncated _) => true
  | _ => false

/-- Whether the bytes of a record do not follow its schema. -/
def breaksSchema : BackupError → Bool
  | record (.decode _) => true
  | _ => false

end BackupError
end ChatBackup
