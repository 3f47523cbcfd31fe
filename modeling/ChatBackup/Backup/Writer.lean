import ChatBackup.Counts
import ChatBackup.Record.Stream

/-!
# Writing a backup

A backup is a header and any number of frames after it. `BackupWriter` keeps the order of calls,
whatever becomes of the records: where they go is a `RecordOutput`. A call that is out of order is
refused and changes nothing. After a failure, and after it was closed, a writer takes nothing more.
-/

namespace ChatBackup

/-- How far a backup has been written. -/
inductive WriteProgress where
  | created
  | headerWritten
  | frameWritten
  | closed
  | failed
  deriving DecidableEq, Repr

namespace WriteProgress

/-- Whether a header may be written. -/
def admitHeader : WriteProgress → Except OrderError Unit
  | created => .ok ()
  | headerWritten | frameWritten => .error .headerAlreadyWritten
  | closed => .error .closed
  | failed => .error .failed

/-- Whether a frame may be written. -/
def admitFrame : WriteProgress → Except OrderError Unit
  | headerWritten | frameWritten => .ok ()
  | created => .error .headerNotWritten
  | closed => .error .closed
  | failed => .error .failed

/-- Whether there is anything to close. To close again is allowed and does nothing. -/
def admitClose : WriteProgress → Except OrderError Bool
  | headerWritten | frameWritten => .ok true
  | closed => .ok false
  | created => .error .headerNotWritten
  | failed => .error .failed

/-- After a record was refused: a failure is final, but an output that was not open to begin with
leaves the state alone. -/
def afterRefusal (s : WriteProgress) : BackupError → WriteProgress
  | .order _ => s
  | _ => failed

@[simp] theorem afterRefusal_io (s : WriteProgress) (e : Failure) :
    s.afterRefusal (.io e) = failed := rfl

theorem afterRefusal_ne_created {s : WriteProgress} (hs : s ≠ created) (e : BackupError) :
    s.afterRefusal e ≠ created := by
  cases e with
  | order e => exact hs
  | _ => simp [afterRefusal]

end WriteProgress

/-- A state that takes the written form of records and is completed after the last one. -/
class RecordOutput (δ : Type) where
  /-- Take the written form of a record. -/
  put : δ → Bytes → Except BackupError Unit × δ
  /-- Complete the backup and enter what that brought into the counts, even if it failed in the
  end. -/
  complete : δ → BackupCounts → Except BackupError Unit × BackupCounts × δ

/-- A backup that is being written. -/
structure BackupWriter (δ : Type) where
  output : δ
  state : WriteProgress := .created
  counts : BackupCounts := {}

namespace BackupWriter

variable {δ α : Type} [RecordOutput δ] [Record α]

/-- Writes a record and enters it with the new state; a failure leaves the counts alone. -/
def put (w : BackupWriter δ) (a : α) (next : WriteProgress)
    (enter : BackupCounts → Nat → BackupCounts) : Except BackupError Unit × BackupWriter δ :=
  let wire := Record.wire a
  match RecordOutput.put w.output wire with
  | (.ok (), output) =>
    (.ok (), { output, state := next, counts := enter w.counts wire.length })
  | (.error e, output) => (.error e, { w with output, state := w.state.afterRefusal e })

/-- Writes the header, which must be the first call. -/
def writeHeader (w : BackupWriter δ) (header : α) : Except BackupError Unit × BackupWriter δ :=
  match w.state.admitHeader with
  | .error e => (.error (.order e), w)
  | .ok () => w.put header .headerWritten BackupCounts.countHeader

/-- Writes a frame, which must come after the header. -/
def writeFrame (w : BackupWriter δ) (frame : α) : Except BackupError Unit × BackupWriter δ :=
  match w.state.admitFrame with
  | .error e => (.error (.order e), w)
  | .ok () => w.put frame .frameWritten BackupCounts.countFrame

/-- Completes the backup, unless that was done before. -/
def close (w : BackupWriter δ) : Except BackupError Unit × BackupWriter δ :=
  match w.state.admitClose with
  | .error e => (.error (.order e), w)
  | .ok false => (.ok (), w)
  | .ok true =>
    match RecordOutput.complete w.output w.counts with
    | (.ok (), counts, output) => (.ok (), { output, state := .closed, counts })
    | (.error e, counts, output) => (.error e, { output, state := .failed, counts })

end BackupWriter
end ChatBackup
