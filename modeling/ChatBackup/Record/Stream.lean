import ChatBackup.Channel.Sink
import ChatBackup.Channel.Source
import ChatBackup.Error
import ChatBackup.Record.Basic

/-!
# Records on a channel

A record is written as its length in base 128 and its encoded message. Reading tells five things
apart: a record, the clean end of the stream between records, a record cut short, one that cannot
be decoded, and a failing source.
-/

namespace ChatBackup

/-- What reading a length from a stream came to. -/
inductive LengthRead where
  | value (n : Nat)
  /-- The stream had ended. -/
  | cleanEnd
  /-- The stream ended after some bytes of the number. -/
  | cut (bytesRead : Nat)
  /-- The number takes more than 64 bits. -/
  | overflow
  deriving DecidableEq, Repr

/-- What reading a record from a stream came to. -/
inductive RecordRead (α : Type) where
  | record (value : α)
  | endOfStream
  | truncated (cut : RecordCut)
  | failed (error : RecordError)
  deriving DecidableEq, Repr

/-- The record that was read, nothing at the end of the stream, or the error. -/
def RecordRead.toResult {α : Type} : RecordRead α → Except RecordError (Option α)
  | record a => .ok (some a)
  | endOfStream => .ok none
  | truncated cut => .error (.truncated cut)
  | failed e => .error e

/-! ## Reading -/

section Reading

variable {σ : Type} [Source σ]

/-- Reads the rest of a number byte by byte, at most `left` bytes; `i` bytes with the value `v` are
there already. -/
def readLengthWithin : Nat → Nat → Nat → σ → Except Failure LengthRead × σ
  | 0, _, _, s => (.ok .overflow, s)
  | left + 1, i, v, s =>
    let one := Source.gather s 1
    match one.failure, one.got with
    | some e, _ => (.error e, one.source)
    | none, [] => (.ok (if i = 0 then .cleanEnd else .cut i), one.source)
    | none, b :: _ =>
      if left = 0 && 1 < b then (.ok .overflow, one.source)
      else
        let v := v + (b.toNat % 128) <<< (7 * i)
        if b < 128 then (.ok (.value v), one.source)
        else readLengthWithin left (i + 1) v one.source

/-- Read a number in base 128. -/
def readLength (s : σ) : Except Failure LengthRead × σ :=
  readLengthWithin Varint.maxLength 0 0 s

/-- Read the next record. A length above `maxLength` is refused before any of the record is
read. -/
def Record.read (α : Type) [Record α] (s : σ) (maxLength : Nat) :
    Except Failure (RecordRead α) × σ :=
  match readLength s with
  | (.error e, s) => (.error e, s)
  | (.ok .cleanEnd, s) => (.ok .endOfStream, s)
  | (.ok (.cut n), s) => (.ok (.truncated (.inLength n)), s)
  | (.ok .overflow, s) => (.ok (.failed .lengthOverflow), s)
  | (.ok (.value length), s) =>
    -- nothing of a record that is too long is read
    if maxLength < length then (.ok (.failed (.tooLarge length maxLength)), s)
    else
      let body := Source.gatherPages s length
      match body.failure with
      | some e => (.error e, body.source)
      | none =>
        let actual := body.got.length
        if actual < length then (.ok (.truncated (.inPayload length actual)), body.source)
        else
          match (Record.schema (α := α)).decode body.got with
          | .ok a => (.ok (.record a), body.source)
          | .error e => (.ok (.failed (.decode e)), body.source)

end Reading

/-- Take one record off the front of a byte string: nothing if it is empty, otherwise the record
and the number of bytes it took. -/
def Record.ofBytes (α : Type) [Record α] (b : Bytes) : Except BackupError (Option (α × Nat)) :=
  match Record.read α (ByteSource.mk b) (UInt64.size - 1) with
  | (.error e, _) => .error (.io e)
  | (.ok r, s) =>
    match r.toResult with
    | .error e => .error (.record e)
    | .ok none => .ok none
    | .ok (some a) => .ok (some (a, b.length - s.rest.length))

/-! ## Writing -/

/-- The written form of a record. -/
def Record.wire {α : Type} [Record α] (a : α) : Bytes :=
  Varint.encode (Record.schema.size a) ++ Record.schema.encode a

/-- The length of the written form, without writing it. -/
def Record.wireLength {α : Type} [Record α] (a : α) : Nat :=
  Varint.size (Record.schema.size a) + Record.schema.size a

/-- Write a record and tell the number of bytes written. -/
def Record.write {σ α : Type} [Sink σ] [Record α] (s : σ) (a : α) : Except Failure Nat × σ :=
  let wire := Record.wire a
  match Sink.writeAll s wire with
  | (.ok (), s) => (.ok wire.length, s)
  | (.error e, s) => (.error e, s)

end ChatBackup
