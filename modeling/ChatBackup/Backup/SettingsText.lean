import ChatBackup.Backup.Settings
import ChatBackup.Counts
import ChatBackup.Json.Grammar

/-!
# Settings as text

Settings and counts are written as JSON objects. They are read from an object with the
fields in any order, or from an array with the fields in their own order. What an object holds
besides is passed over, but no field may stand there twice. A field that is missing from
settings takes its default; counts must be complete.
-/

namespace ChatBackup

namespace JsonValue

/-- The value for a field: nothing if it is missing, a failure if it is there twice. -/
def member? (members : List (Option String × JsonValue)) (name : String) :
    Option (Option JsonValue) :=
  match members.filter (·.1 == some name) with
  | [] => some none
  | [(_, v)] => some (some v)
  | _ => none

/-- The values for fields with the names given, in their order. -/
def fields? (names : List String) : JsonValue → Option (List (Option JsonValue))
  | array items =>
    -- fields at the end may be missing, but none may be too many
    if items.length ≤ names.length then
      some (items.map some ++ List.replicate (names.length - items.length) none)
    else none
  | object members =>
    -- a key that has no text cannot even be passed over
    if members.all (·.1.isSome) then names.mapM (member? members) else none
  | _ => none

/-- A natural number up to a limit. -/
def natural? (limit : Nat) : JsonValue → Option Nat
  | natural n => if n ≤ limit then some n else none
  | _ => none

/-- A padding policy: its name, alone or as the only key of an object with nothing behind it. -/
def policy? : JsonValue → Option PaddingPolicy
  | string (some name) => PaddingPolicy.ofName? name
  | object [(some name, null)] => PaddingPolicy.ofName? name
  | _ => none

/-- The value of a field that may be missing. -/
def orDefault {α : Type} (read : JsonValue → Option α) (default : α) : Option JsonValue → Option α
  | some v => read v
  | none => some default

end JsonValue

/-- The largest number of 32 bits. -/
def maxUInt32 : Nat := UInt32.size - 1

open JsonValue

namespace WriteSettings

/-- The written form. -/
def toJson (c : WriteSettings) : JsonValue :=
  .object [(some "compression_level", .natural c.compressionLevel),
    (some "padding", .string (some c.padding.name))]

/-- Reads settings. -/
def ofText? (text : String) : Option WriteSettings := do
  let defaults : WriteSettings := {}
  match ← fields? ["compression_level", "padding"] (← JsonValue.ofText? text) with
  | [level, padding] =>
    some { compressionLevel := ← orDefault (natural? maxUInt32) defaults.compressionLevel level
           padding := ← orDefault policy? defaults.padding padding }
  | _ => none

end WriteSettings

namespace ReadSettings

/-- The written form. -/
def toJson (c : ReadSettings) : JsonValue :=
  .object [(some "max_record_len", .natural c.maxRecordLength),
    (some "buffer_len", .natural c.bufferLength)]

/-- Reads settings. -/
def ofText? (text : String) : Option ReadSettings := do
  let defaults : ReadSettings := {}
  match ← fields? ["max_record_len", "buffer_len"] (← JsonValue.ofText? text) with
  | [record, buffer] =>
    some { maxRecordLength := ← orDefault (natural? maxUInt64) defaults.maxRecordLength record
           bufferLength := ← orDefault (natural? maxUInt64) defaults.bufferLength buffer }
  | _ => none

end ReadSettings

namespace BackupCounts

/-- The names of the counts. -/
def names : List String := ["frames_header", "frames_data", "bytes_plaintext", "bytes_compressed",
  "bytes_padding", "bytes_ciphertext", "bytes_mac"]

/-- The counts in the order of their names. -/
def toList (c : BackupCounts) : List Nat := [c.headers, c.frames, c.plaintextBytes,
  c.compressedBytes, c.paddingBytes, c.ciphertextBytes, c.macBytes]

/-- The counts with the numbers given in the order of their names. -/
def ofList? : List Nat → Option BackupCounts
  | [headers, frames, plaintextBytes, compressedBytes, paddingBytes, ciphertextBytes,
      macBytes] =>
    some { headers, frames, plaintextBytes, compressedBytes, paddingBytes
           ciphertextBytes, macBytes }
  | _ => none

/-- The written form. -/
def toJson (c : BackupCounts) : JsonValue :=
  .object ((names.map some).zip (c.toList.map .natural))

/-- Reads counts. -/
def ofText? (text : String) : Option BackupCounts := do
  let values ← fields? names (← JsonValue.ofText? text)
  ofList? (← values.mapM fun v => v.bind (natural? maxUInt64))

end BackupCounts
end ChatBackup
