import ChatBackup.Counts
import ChatBackup.Record.Stream

/-!
# Reading a backup

A `BackupReader` reads the header when it is opened and is always one frame ahead: the next frame,
or the error met while reading it, is there before it is asked for. A frame that could be read is
handed out before an error that follows it.
-/

namespace ChatBackup

/-- What comes next. -/
inductive Upcoming (φ : Type) where
  /-- A frame. -/
  | frame (frame : φ)
  /-- The error met in its place. -/
  | failure (error : BackupError)
  /-- Nothing. -/
  | nothing
  deriving DecidableEq, Repr

/-- A backup that is being read. -/
structure BackupReader (σ η φ : Type) where
  /-- Where frames come from; nothing once it has failed or was closed. -/
  source : Option σ
  header : Option η
  upcoming : Upcoming φ
  maxRecordLength : Nat
  counts : BackupCounts

/-- The record that was read, nothing at the clean end, or the error. -/
def Record.fetch {σ : Type} [Source σ] (α : Type) [Record α] (s : σ) (maxLength : Nat) :
    Except BackupError (Option α) × σ :=
  match Record.read α s maxLength with
  | (.error e, s) => (.error (.io e), s)
  | (.ok r, s) => (r.toResult.mapError .record, s)

namespace BackupReader

variable {σ η φ : Type} [Source σ] [Record η] [Record φ]

/-- Reads the next frame ahead. -/
def advance (r : BackupReader σ η φ) : BackupReader σ η φ :=
  match r.source with
  | none => { r with upcoming := .nothing }
  | some s =>
    match Record.fetch φ s r.maxRecordLength with
    | (.ok (some frame), s) =>
      { r with
        source := some s
        upcoming := .frame frame
        counts := r.counts.countFrame (Record.wireLength frame) }
    | (.ok none, s) => { r with source := some s, upcoming := .nothing }
    | (.error e, s) => { r with source := some s, upcoming := .failure e }

/-- Reads the header and the first frame. A source that is empty has neither. -/
def start (s : σ) (maxRecordLength : Nat) : Except BackupError (BackupReader σ η φ) :=
  match Record.fetch η s maxRecordLength with
  | (.error e, _) => .error e
  | (.ok none, s) =>
    .ok { source := some s, header := none, upcoming := .nothing, maxRecordLength, counts := {} }
  | (.ok (some header), s) =>
    let counts : BackupCounts := {}
    .ok (advance {
      source := some s
      header := some header
      upcoming := .nothing
      maxRecordLength
      counts := counts.countHeader (Record.wireLength header) })

/-- Whether a frame or an error is left. -/
def hasMore (r : BackupReader σ η φ) : Bool :=
  match r.upcoming with
  | .nothing => false
  | _ => true

/-- Hands out the next frame or the error in its place, after which nothing follows. -/
def next (r : BackupReader σ η φ) : Except BackupError φ × BackupReader σ η φ :=
  match r.upcoming with
  | .frame frame => (.ok frame, r.advance)
  -- where the next record begins is not known any more
  | .failure e => (.error e, { r with source := none, upcoming := .nothing })
  | .nothing => (.error .noSuchElement, r)

/-- Hands out what is left as long as there is something. -/
def next? (r : BackupReader σ η φ) : Option (Except BackupError φ) × BackupReader σ η φ :=
  if r.hasMore then
    match r.next with
    | (result, r) => (some result, r)
  else (none, r)

/-- Lets go of the source and of the frame ahead. -/
def close (r : BackupReader σ η φ) : BackupReader σ η φ :=
  { r with source := none, upcoming := .nothing }

end BackupReader
end ChatBackup
