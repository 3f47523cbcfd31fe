import ChatBackup.Channel.Source
import ChatBackup.Gzip.Crc32

/-!
# The frame of a gzip member

A member is a header, the compressed data and a trailer. `header` and `trailer` are what is
written. `readHeader` takes any valid header, with an extra field, a name, a comment and a check of
its own if its flags announce them.
-/

namespace ChatBackup.Gzip

/-- How hard compression tries, from not at all to its best. -/
structure Level where
  value : Nat
  value_le : value ≤ 9
  deriving DecidableEq

namespace Level

/-- A middle way. -/
def standard : Level := ⟨6, by decide⟩

/-- The level with a given number; the standard one if there is none. -/
def ofNat (n : Nat) : Level := if h : n ≤ 9 then ⟨n, h⟩ else standard

end Level

/-- The two bytes that open a member, and the mark of its method of compression. -/
def magic : Bytes := [0x1f, 0x8b, 8]

/-- The note on the effort made that a header carries. -/
def effort (level : Level) : UInt8 :=
  if level.value = 9 then 2 else if level.value ≤ 1 then 4 else 0

/-- The number of bytes in a header without optional parts. -/
def headerLength : Nat := 10

/-- A header without optional parts: no flags, no time, and no system named. -/
def header (level : Level) : Bytes := magic ++ [0, 0, 0, 0, 0, effort level, 0xff]

/-- The number of bytes in a trailer. -/
def trailerLength : Nat := 8

/-- The check of the data and its length, cut to 32 bits. -/
def trailer (check : UInt32) (length : Nat) : Bytes :=
  Bytes.littleEndian 4 check.toNat ++ Bytes.littleEndian 4 length

/-- The most bytes that a name or a comment may have. -/
def maxTextLength : Nat := 65535

/-! ## Reading a header -/

section Reading

variable {σ : Type} [Source σ]

/-- Takes bytes of a header or trailer, which must not end inside them. -/
def readPart (s : σ) (n : Nat) : Except Failure Bytes × σ :=
  let all := Source.gather s n
  match all.failure with
  | some e => (.error e, all.source)
  | none =>
    if all.got.length < n then (.error .gzipCut, all.source) else (.ok all.got, all.source)

/-- Takes the bytes of a text up to and including the zero that ends it, at most `left` before
that; those taken stand in reverse. -/
def readTextWithin : Nat → Bytes → σ → Except Failure Bytes × σ
  | left, taken, s =>
    match readPart s 1 with
    | (.error e, s) => (.error e, s)
    | (.ok b, s) =>
      if b = [0] then (.ok (0 :: taken).reverse, s)
      else
        match left with
        | 0 => (.error .gzipFieldTooLong, s)
        | left + 1 => readTextWithin left (b ++ taken) s

/-- Takes a text with the zero that ends it. -/
def readText (s : σ) : Except Failure Bytes × σ := readTextWithin maxTextLength [] s

/-- Takes an extra field with its length. -/
def readExtra (s : σ) : Except Failure Bytes × σ :=
  match readPart s 2 with
  | (.error e, s) => (.error e, s)
  | (.ok length, s) =>
    match readPart s (Bytes.ofLittleEndian length) with
    | (.error e, s) => (.error e, s)
    | (.ok extra, s) => (.ok (length ++ extra), s)

/-- Takes the check of the header and compares it. -/
def readHeaderCheck (before : Bytes) (s : σ) : Except Failure Bytes × σ :=
  match readPart s 2 with
  | (.error e, s) => (.error e, s)
  | (.ok told, s) =>
    if told = Bytes.littleEndian 2 (Crc32.check before).toNat then (.ok told, s)
    else (.error .gzipChecksum, s)

/-- Takes one part of a header if it is announced, and puts it after the parts before. -/
def readIf (announced : Bool) (part : Bytes → σ → Except Failure Bytes × σ) :
    Except Failure Bytes × σ → Except Failure Bytes × σ
  | (.error e, s) => (.error e, s)
  | (.ok before, s) =>
    if announced then
      match part before s with
      | (.error e, s) => (.error e, s)
      | (.ok b, s) => (.ok (before ++ b), s)
    else (.ok before, s)

/-- Takes the fixed part of a header and tells the flags. -/
def readFixed (s : σ) : Except Failure Bytes × σ :=
  match readPart s headerLength with
  | (.error e, s) => (.error e, s)
  | (.ok b, s) => if b.take 3 = magic then (.ok b, s) else (.error .gzipHeader, s)

/-- Takes a header off the front of a source. -/
def readHeader (s : σ) : Except Failure Unit × σ :=
  match readFixed s with
  | (.error e, s) => (.error e, s)
  | (.ok b, s) =>
    let flags := (b[3]?).getD 0
    let announced (bit : UInt8) : Bool := flags &&& bit != 0
    -- the three highest flags must not be set
    if announced 0xe0 then (.error .gzipHeader, s)
    else
      -- innermost first: extra field, name, comment, check
      let all := readIf (announced 2) readHeaderCheck
        (readIf (announced 16) (fun _ => readText)
          (readIf (announced 8) (fun _ => readText)
            (readIf (announced 4) (fun _ => readExtra) (.ok b, s))))
      (all.1.map fun _ => (), all.2)

end Reading
end ChatBackup.Gzip
