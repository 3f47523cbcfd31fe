import ChatBackup.Padding

/-!
# Counts of a backup

What a writer or a reader has seen so far: records, their bytes, and for a writer the bytes of each
later form. A reader counts records only.
-/

namespace ChatBackup

/-- Counts of records and bytes. -/
structure BackupCounts where
  headers : Nat := 0
  frames : Nat := 0
  /-- Bytes of records with their lengths. -/
  plaintextBytes : Nat := 0
  compressedBytes : Nat := 0
  paddingBytes : Nat := 0
  /-- Bytes of the initialisation vector and the ciphertext. -/
  ciphertextBytes : Nat := 0
  macBytes : Nat := 0
  deriving DecidableEq, Repr

namespace BackupCounts

/-- A header record of a given length more. -/
def countHeader (c : BackupCounts) (wireLength : Nat) : BackupCounts :=
  { c with
    headers := c.headers + 1
    plaintextBytes := c.plaintextBytes + wireLength }

/-- A frame record of a given length more. -/
def countFrame (c : BackupCounts) (wireLength : Nat) : BackupCounts :=
  { c with
    frames := c.frames + 1
    plaintextBytes := c.plaintextBytes + wireLength }

/-- A finished compressed stream more. -/
def countCompression (c : BackupCounts) (s : StreamSizes) : BackupCounts :=
  { c with
    compressedBytes := c.compressedBytes + s.compressed
    paddingBytes := c.paddingBytes + s.padding }

/-- An encrypted body and its authentication code more. -/
def countEncryption (c : BackupCounts) (ciphertextLength macLength : Nat) : BackupCounts :=
  { c with
    ciphertextBytes := c.ciphertextBytes + ciphertextLength
    macBytes := c.macBytes + macLength }

/-- All bytes handed to the sink. -/
def written (c : BackupCounts) : Nat := c.ciphertextBytes + c.macBytes

/-- The compressed size relative to the size before compression; zero if there was nothing. -/
def compressionRatio (c : BackupCounts) : Float :=
  if c.plaintextBytes = 0 then 0
  else (UInt64.ofNat c.compressedBytes).toFloat / (UInt64.ofNat c.plaintextBytes).toFloat

/-- Both counts together. -/
def merge (c d : BackupCounts) : BackupCounts where
  headers := c.headers + d.headers
  frames := c.frames + d.frames
  plaintextBytes := c.plaintextBytes + d.plaintextBytes
  compressedBytes := c.compressedBytes + d.compressedBytes
  paddingBytes := c.paddingBytes + d.paddingBytes
  ciphertextBytes := c.ciphertextBytes + d.ciphertextBytes
  macBytes := c.macBytes + d.macBytes

instance : Add BackupCounts := ⟨merge⟩

theorem merge_assoc (c d e : BackupCounts) : (c.merge d).merge e = c.merge (d.merge e) := by
  simp [merge, Nat.add_assoc]

theorem merge_comm (c d : BackupCounts) : c.merge d = d.merge c := by
  simp [merge, Nat.add_comm]

end BackupCounts
end ChatBackup
