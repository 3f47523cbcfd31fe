import ChatBackup.Channel.Sink
import ChatBackup.Channel.Source
import ChatBackup.Crypto.Hmac
import ChatBackup.Error

/-!
# Authenticating a stream

`Authenticated` is a sink that hashes what is accepted on the way, `verifyMac` checks a stream that
carries the digest behind its body.
-/

namespace ChatBackup

/-! ## Hashing on the way -/

/-- A sink that hashes exactly the bytes that the next sink accepts. -/
structure Authenticated (σ : Type) where
  /-- The sink the bytes go to. -/
  inner : σ
  /-- The keyed hash of the accepted bytes. -/
  mac : Hmac
  /-- How many bytes were accepted. -/
  written : Nat := 0

namespace Authenticated

variable {σ : Type} [Sink σ]

/-- A sink with nothing written yet. -/
def start (inner : σ) (key : Bytes) : Authenticated σ := { inner, mac := Hmac.start key }

instance : Sink (Authenticated σ) where
  write w b :=
    match Sink.write w.inner b with
    | (.done n, inner) =>
      (.done n, { inner, mac := w.mac.update (b.take n), written := w.written + n })
    | (.interrupted, inner) => (.interrupted, { w with inner })
    | (.failed e, inner) => (.failed e, { w with inner })
  flush w :=
    match Sink.flush w.inner with
    | (r, inner) => (r, { w with inner })
  patience w := Sink.patience w.inner
  write_le w b n h := by
    have := Sink.write_le w.inner b n
    revert h
    split <;> rename_i heq <;> simp_all

/-- Flushes and tells the digest of all bytes accepted. -/
def finish (w : Authenticated σ) : Except Failure Bytes × σ :=
  match Sink.flush w.inner with
  | (.ok (), inner) => (.ok w.mac.digest, inner)
  | (.error e, inner) => (.error e, inner)

end Authenticated

/-! ## Verifying -/

section Verifying

variable {σ : Type} [Source σ]

/-- Hashes a source to its end, a buffer at a time, and tells how many bytes it had. Each round
takes a byte at least, so more rounds than the source has bytes always suffice. -/
def hashToEnd (bufferLength : Nat) : Nat → Hmac → Nat → σ → Except Failure (Hmac × Nat) × σ
  | 0, m, seen, s => (.ok (m, seen), s)
  | fuel + 1, m, seen, s =>
    let piece := Source.gather s bufferLength
    match piece.failure, piece.got with
    | some e, _ => (.error e, piece.source)
    | none, [] => (.ok (m, seen), piece.source)
    | none, got => hashToEnd bufferLength fuel (m.update got) (seen + got.length) piece.source

/-- Check that the bytes after the next `bodyLength` ones are the digest of those. -/
def verifyMac (s : σ) (key : Bytes) (bodyLength bufferLength : Nat) :
    Except BackupError Unit × σ :=
  let body : Limited σ := { inner := s, left := bodyLength }
  match hashToEnd (max bufferLength 1) (bodyLength + 1) (Hmac.start key) 0 body with
  | (.error e, body) => (.error (.io e), body.inner)
  | (.ok (m, seen), body) =>
    -- a body that ends early has no digest behind it
    if seen ≠ bodyLength then (.error (.io (.bodyCut seen bodyLength)), body.inner)
    else
      match Source.gatherExactly body.inner Sha256.digestLength with
      | (.error e, s) => (.error (.io e), s)
      | (.ok expected, s) =>
        if m.digest = expected then (.ok (), s) else (.error (.crypto .macMismatch), s)

end Verifying
end ChatBackup
