import ChatBackup.Error
import ChatBackup.Padding

/-!
# Settings

How a backup is written and read. Every field has a default; `check` refuses values that no
backup can be written or read with.
-/

namespace ChatBackup

/-- How a backup is written. -/
structure WriteSettings where
  /-- From 0, which only stores, to 9. -/
  compressionLevel : Nat := 6
  padding : PaddingPolicy := .randomized
  deriving DecidableEq, Repr

namespace WriteSettings

/-- The largest compression level. -/
def maxLevel : Nat := 9

/-- The given values, with the defaults for those that are missing. -/
def ofOptions (level : Option Nat) (padding : Option PaddingPolicy) : WriteSettings :=
  let defaults : WriteSettings := {}
  { compressionLevel := level.getD defaults.compressionLevel
    padding := padding.getD defaults.padding }

/-- Refuses a level that is too high. -/
def check (c : WriteSettings) : Except SettingsError Unit :=
  if maxLevel < c.compressionLevel then .error (.compressionLevel c.compressionLevel) else .ok ()

end WriteSettings

/-- How a backup is read. -/
structure ReadSettings where
  /-- The longest record that is taken. -/
  maxRecordLength : Nat := 16777216
  /-- How much is read at a time. -/
  bufferLength : Nat := 8192
  deriving DecidableEq, Repr

namespace ReadSettings

/-- Refuses lengths of zero; the record length is looked at first. -/
def check (c : ReadSettings) : Except SettingsError Unit :=
  if c.maxRecordLength = 0 then .error .maxRecordLength
  else if c.bufferLength = 0 then .error .bufferLength
  else .ok ()

end ReadSettings
end ChatBackup
