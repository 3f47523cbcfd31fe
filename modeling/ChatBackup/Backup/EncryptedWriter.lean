import ChatBackup.Backup.Settings
import ChatBackup.Backup.Writer
import ChatBackup.Crypto.CbcStage
import ChatBackup.Crypto.Key
import ChatBackup.Crypto.Mac
import ChatBackup.Gzip.Writer

/-!
# Writing an encrypted backup

The records are compressed, in whatever way a `Coder` does, and padded, then encrypted, then hashed.
The sink gets the initialisation vector, the ciphertext, and at the very end the authentication code
over both, which is appended apart from what was written before.
-/

namespace ChatBackup

/-- The stages that records pass on their way to the sink. -/
abbrev EncryptStages (C : Coder) (σ : Type) := GzipWriter C (CbcWriter (Authenticated σ))

/-- The output of an encrypted backup. -/
inductive EncryptedOutput (C : Coder) (σ : Type) where
  /-- Open for records, with random bits for the padding. -/
  | opened (stages : EncryptStages C σ) (draws : List UInt64)
  /-- Complete. -/
  | finished (sink : σ)
  /-- Given up because it could not be completed. -/
  | broken (sink : σ)

namespace EncryptedOutput

variable {C : Coder} {σ : Type} [AppendSink σ]

/-- Appends the authentication code and flushes it. -/
def appendMac (sink : σ) (digest : Bytes) : Except Failure Unit × σ :=
  match AppendSink.append sink digest with
  | (.ok (), sink) => Sink.flush sink
  | (.error e, sink) => (.error e, sink)

/-- Finishes the stages one by one, each after the one whose output it takes. -/
def finishStages (stages : EncryptStages C σ) (draws : List UInt64) (counts : BackupCounts) :
    Except Failure Unit × BackupCounts × σ :=
  match stages.finish draws with
  | (.error e, cbc) => (.error e, counts, cbc.inner.inner)
  | (.ok summary, cbc) =>
    let counts := counts.countCompression summary
    match cbc.finish with
    | (.error e, mac) => (.error e, counts, mac.inner)
    | (.ok (), mac) =>
      -- the authentication code itself is not a part of the body
      let written := mac.written
      match mac.finish with
      | (.error e, sink) => (.error e, counts, sink)
      | (.ok digest, sink) =>
        match appendMac sink digest with
        | (.error e, sink) => (.error e, counts, sink)
        | (.ok (), sink) => (.ok (), counts.countEncryption written digest.length, sink)

instance : RecordOutput (EncryptedOutput C σ) where
  put
    | opened stages draws, wire =>
      match Sink.writeAll stages wire with
      | (r, stages) => (r.mapError .io, opened stages draws)
    | finished sink, _ => (.error (.order .closed), finished sink)
    | broken sink, _ => (.error (.order .failed), broken sink)
  complete
    | opened stages draws, counts =>
      match finishStages stages draws counts with
      | (.ok (), counts, sink) => (.ok (), counts, finished sink)
      | (.error e, counts, sink) => (.error (.io e), counts, broken sink)
    | o, counts => (.error (.order .failed), counts, o)

/-- The sink of an output that is not used any more. An open one ends its compressed stream, as far
as the sink lets it; the blocks that are whole then are encrypted, and nothing is authenticated. -/
def abandon : EncryptedOutput C σ → σ
  | opened stages _ => stages.sendEnding.2.inner.inner.inner
  | finished sink => sink
  | broken sink => sink

end EncryptedOutput

/-- An encrypted backup that is being written. -/
abbrev EncryptedWriter (C : Coder) (σ : Type) := BackupWriter (EncryptedOutput C σ)

namespace EncryptedWriter

variable {C : Coder} {σ : Type} [AppendSink σ]

/-- Opens a writer, which writes the initialisation vector at once. If that fails the sink is given
back with the error. -/
def start (C : Coder) (sink : σ) (key : BackupKey) (iv : Block) (draws : List UInt64)
    (settings : WriteSettings) : Except (BackupError × σ) (EncryptedWriter C σ) :=
  match settings.check with
  | .error e => .error (.settings e, sink)
  | .ok () =>
    match Sink.writeAll (Authenticated.start sink key.macKey) iv.toBytes with
    | (.error e, mac) => .error (.io e, mac.inner)
    | (.ok (), mac) =>
      let cbc := CbcWriter.start mac key.cipher iv
      let stages := GzipWriter.start C cbc (.ofNat settings.compressionLevel) settings.padding
      .ok { output := .opened stages draws }

/-- Closes the writer if need be and gives the sink back. -/
def intoSink (w : EncryptedWriter C σ) : Except BackupError σ × EncryptedWriter C σ :=
  match w.close with
  | (.error e, w) => (.error e, w)
  | (.ok (), w) =>
    match w.output with
    | .finished sink => (.ok sink, w)
    | _ => (.error (.order .failed), w)

end EncryptedWriter
end ChatBackup
