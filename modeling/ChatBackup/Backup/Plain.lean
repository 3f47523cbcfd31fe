import ChatBackup.Backup.Reader
import ChatBackup.Backup.Settings
import ChatBackup.Backup.Writer

/-!
# Plain backups

A backup without compression or encryption: the records as they stand, one after another.
-/

namespace ChatBackup

/-- The output of a plain backup. -/
structure PlainOutput (σ : Type) where
  sink : σ

namespace PlainOutput

variable {σ : Type} [Sink σ]

instance : RecordOutput (PlainOutput σ) where
  put o wire :=
    match Sink.writeAll o.sink wire with
    | (r, sink) => (r.mapError .io, ⟨sink⟩)
  complete o counts :=
    match Sink.flush o.sink with
    | (r, sink) => (r.mapError .io, counts, ⟨sink⟩)

end PlainOutput

/-- A plain backup that is being written. -/
abbrev PlainWriter (σ : Type) := BackupWriter (PlainOutput σ)

namespace PlainWriter

variable {σ : Type} [Sink σ]

/-- A writer with nothing written yet. -/
def start (sink : σ) : PlainWriter σ := { output := ⟨sink⟩ }

/-- Closes the writer if need be and gives the sink back. -/
def intoSink (w : PlainWriter σ) : Except BackupError σ × PlainWriter σ :=
  match w.close with
  | (r, w) => (r.map fun () => w.output.sink, w)

end PlainWriter

/-- A plain backup that is being read. -/
abbrev PlainReader (σ η φ : Type) := BackupReader (Buffered σ) η φ

namespace PlainReader

variable {σ η φ : Type} [Source σ] [Record η] [Record φ]

/-- Opens a plain backup. -/
def start (source : σ) (settings : ReadSettings) : Except BackupError (PlainReader σ η φ) :=
  match settings.check with
  | .error e => .error (.settings e)
  | .ok () =>
    BackupReader.start { inner := source, capacity := settings.bufferLength }
      settings.maxRecordLength

end PlainReader
end ChatBackup
