import ChatBackup.Wire.Skip

/-!
# Message schemas

A schema lists the fields of a message type in the order of their numbers. Each field says how it
is written, how long that is, and how a field read from a message is merged into a value. From
these follow the encoding of a message (`Schema.encode`), its length without encoding it
(`Schema.size`) and decoding (`Schema.decode`).

The rules of the format: a plain field with its default value is left out, an optional field that
is present and a submessage are always written. When a field occurs again a later scalar wins, a
later submessage is merged into the earlier one, and a later repeated element is added. Numbers
keep the low bits that fit. Unknown fields are skipped.
-/

namespace ChatBackup

/-- One field of messages represented by `α`. -/
structure Field (α : Type) where
  /-- The number in the field's key. -/
  number : Nat
  /-- The name in error paths. -/
  name : String
  /-- The written form, with its key. -/
  encode : α → Bytes
  /-- The length of the written form. -/
  size : α → Nat
  /-- Takes the content of an occurrence of the field into a value, with a nesting budget. -/
  merge : Nat → WireType → α → Bytes → Except DecodeError (α × Bytes)

/-- A message type. -/
structure Schema (α : Type) where
  /-- The name in error paths. -/
  name : String
  /-- The value of a message without fields. -/
  empty : α
  /-- The fields, in the order in which they are written. -/
  fields : List (Field α)

namespace Schema

variable {α : Type}

/-- The fields of a message, one after another. -/
def encode (m : Schema α) (a : α) : Bytes := m.fields.flatMap (·.encode a)

/-- The length of the encoding, summed over the fields. -/
def size (m : Schema α) (a : α) : Nat := m.fields.foldr (fun f n => f.size a + n) 0

/-- Takes one field off the front: a known one is merged, another one skipped. -/
def mergeField (m : Schema α) (budget : Nat) (a : α) (b : Bytes) :
    Except DecodeError (α × Bytes) :=
  match Key.decode b with
  | .error cause => .error { cause }
  | .ok (k, r) =>
    match m.fields.find? (·.number = k.number) with
    | some f => (f.merge budget k.wire a r).mapError (·.within m.name f.name)
    | none =>
      match skipField budget k.wire k.number r with
      | .error cause => .error { cause }
      | .ok r' => .ok (a, r')

/-- Takes fields off the front until at most `limit` bytes are left. Each round takes a byte at
least, so `fuel ≥ b.length` always suffices. -/
def mergeRounds (m : Schema α) (budget limit : Nat) :
    Nat → α → Bytes → Except DecodeError (α × Bytes)
  | 0, a, b => .ok (a, b)
  | fuel + 1, a, b =>
    if (b.drop limit).isEmpty then .ok (a, b)
    else
      match m.mergeField budget a b with
      | .error e => .error e
      | .ok (a', r) => mergeRounds m budget limit fuel a' r

/-- Takes a submessage, opened by its length, off the front. Its fields may read past its end into
the enclosing message; that is noticed only after them. -/
def mergeDelimited (m : Schema α) (budget : Nat) (a : α) (b : Bytes) :
    Except DecodeError (α × Bytes) :=
  match Varint.decode b with
  | none => .error { cause := .invalidVarint }
  | some (len, r) =>
    if r.length < len then .error { cause := .underflow }
    else
      match m.mergeRounds budget (r.length - len) r.length a r with
      | .error e => .error e
      | .ok (a', r') =>
        -- the last field may have taken bytes from behind the end
        if r'.length = r.length - len then .ok (a', r')
        else .error { cause := .lengthExceeded }

/-- Decodes a whole message. -/
def decode (m : Schema α) (b : Bytes) : Except DecodeError α :=
  (m.mergeRounds recursionBudget 0 b.length m.empty b).map (·.1)

end Schema

namespace Field

/-- A key before a number. -/
def encodeNumber (number n : Nat) : Bytes :=
  Key.encode ⟨number, .varint⟩ ++ Varint.encode n

/-- The length of a key and a number. -/
def sizeNumber (number n : Nat) : Nat := Key.size ⟨number, .varint⟩ + Varint.size n

/-- A key and a length before a string of bytes. -/
def encodeDelimited (number length : Nat) (content : Bytes) : Bytes :=
  Key.encode ⟨number, .lengthDelimited⟩ ++ Varint.encode length ++ content

/-- The length of a key, a length and a string of bytes. -/
def sizeDelimited (number length : Nat) : Nat :=
  Key.size ⟨number, .lengthDelimited⟩ + Varint.size length + length

/-- The bytes of a text. -/
def textBytes (s : String) : Bytes := s.toUTF8.data.toList

/-- The text with the given bytes, if they are valid UTF-8. -/
def text? (b : Bytes) : Option String := String.fromUTF8? ⟨b.toArray⟩

/-- Reads a number, if the wire type says that it is one. -/
def readNumber (wire : WireType) (b : Bytes) : Except DecodeError (Nat × Bytes) :=
  if wire ≠ .varint then .error { cause := .wireTypeMismatch wire .varint }
  else
    match Varint.decode b with
    | some r => .ok r
    | none => .error { cause := .invalidVarint }

/-- Reads a string of bytes, if the wire type says that it is one. -/
def readDelimited (wire : WireType) (b : Bytes) : Except DecodeError (Bytes × Bytes) :=
  if wire ≠ .lengthDelimited then
    .error { cause := .wireTypeMismatch wire .lengthDelimited }
  else
    match Varint.decode b with
    | none => .error { cause := .invalidVarint }
    | some (len, r) =>
      match r.split? len with
      | some r' => .ok r'
      | none => .error { cause := .underflow }

/-- Reads a text. -/
def readText (wire : WireType) (b : Bytes) : Except DecodeError (String × Bytes) :=
  match readDelimited wire b with
  | .error e => .error e
  | .ok (content, r) =>
    match text? content with
    | some s => .ok (s, r)
    | none => .error { cause := .notUtf8 }

/-- Reads a submessage into a value. -/
def readMessage {β : Type} (m : Schema β) (budget : Nat) (wire : WireType) (a : β) (b : Bytes) :
    Except DecodeError (β × Bytes) :=
  if wire ≠ .lengthDelimited then
    .error { cause := .wireTypeMismatch wire .lengthDelimited }
  else
    match budget with
    | 0 => .error { cause := .recursionLimit }
    | budget + 1 => m.mergeDelimited budget a b

variable {α β : Type}

/-! ## Plain fields -/

/-- A number of 64 bits; zero is left out. -/
def uint64 (number : Nat) (name : String) (get : α → UInt64) (set : UInt64 → α → α) :
    Field α where
  number
  name
  encode a := if get a = 0 then [] else encodeNumber number (get a).toNat
  size a := if get a = 0 then 0 else sizeNumber number (get a).toNat
  merge _ wire a b := (readNumber wire b).map fun (n, r) => (set (UInt64.ofNat n) a, r)

/-- A number of 32 bits; zero is left out. -/
def uint32 (number : Nat) (name : String) (get : α → UInt32) (set : UInt32 → α → α) :
    Field α where
  number
  name
  encode a := if get a = 0 then [] else encodeNumber number (get a).toNat
  size a := if get a = 0 then 0 else sizeNumber number (get a).toNat
  merge _ wire a b := (readNumber wire b).map fun (n, r) => (set (UInt32.ofNat n) a, r)

/-- A truth value, written as one; false is left out. -/
def bool (number : Nat) (name : String) (get : α → Bool) (set : Bool → α → α) : Field α where
  number
  name
  encode a := if get a then encodeNumber number 1 else []
  size a := if get a then sizeNumber number 1 else 0
  merge _ wire a b := (readNumber wire b).map fun (n, r) => (set (n != 0) a, r)

/-- A string of bytes; the empty one is left out. -/
def bytes (number : Nat) (name : String) (get : α → Bytes) (set : Bytes → α → α) : Field α where
  number
  name
  encode a := if (get a).isEmpty then [] else encodeDelimited number (get a).length (get a)
  size a := if (get a).isEmpty then 0 else sizeDelimited number (get a).length
  merge _ wire a b := (readDelimited wire b).map fun (c, r) => (set c a, r)

/-- A text; the empty one is left out. -/
def text (number : Nat) (name : String) (get : α → String) (set : String → α → α) : Field α where
  number
  name
  encode a :=
    if get a = "" then [] else encodeDelimited number (get a).utf8ByteSize (textBytes (get a))
  size a := if get a = "" then 0 else sizeDelimited number (get a).utf8ByteSize
  merge _ wire a b := (readText wire b).map fun (s, r) => (set s a, r)

/-! ## Optional fields -/

/-- A number of 64 bits that may be absent. -/
def optionalUint64 (number : Nat) (name : String) (get : α → Option UInt64)
    (set : UInt64 → α → α) : Field α where
  number
  name
  encode a := match get a with
    | some n => encodeNumber number n.toNat
    | none => []
  size a := match get a with
    | some n => sizeNumber number n.toNat
    | none => 0
  merge _ wire a b := (readNumber wire b).map fun (n, r) => (set (UInt64.ofNat n) a, r)

/-- A number of 32 bits that may be absent. -/
def optionalUint32 (number : Nat) (name : String) (get : α → Option UInt32)
    (set : UInt32 → α → α) : Field α where
  number
  name
  encode a := match get a with
    | some n => encodeNumber number n.toNat
    | none => []
  size a := match get a with
    | some n => sizeNumber number n.toNat
    | none => 0
  merge _ wire a b := (readNumber wire b).map fun (n, r) => (set (UInt32.ofNat n) a, r)

/-- A text that may be absent. -/
def optionalText (number : Nat) (name : String) (get : α → Option String)
    (set : String → α → α) : Field α where
  number
  name
  encode a := match get a with
    | some s => encodeDelimited number s.utf8ByteSize (textBytes s)
    | none => []
  size a := match get a with
    | some s => sizeDelimited number s.utf8ByteSize
    | none => 0
  merge _ wire a b := (readText wire b).map fun (s, r) => (set s a, r)

/-! ## Submessages -/

/-- A submessage that may be absent, also one of several that exclude each other: reading it starts
from the submessage that is there already, or else from an empty one. -/
def message (number : Nat) (name : String) (m : Schema β) (get : α → Option β)
    (set : β → α → α) : Field α where
  number
  name
  encode a := match get a with
    | some v => encodeDelimited number (m.size v) (m.encode v)
    | none => []
  size a := match get a with
    | some v => sizeDelimited number (m.size v)
    | none => 0
  merge budget wire a b :=
    (readMessage m budget wire ((get a).getD m.empty) b).map fun (v, r) => (set v a, r)

/-- A submessage that may occur any number of times. -/
def repeated (number : Nat) (name : String) (m : Schema β) (get : α → List β)
    (set : List β → α → α) : Field α where
  number
  name
  encode a := (get a).flatMap fun v => encodeDelimited number (m.size v) (m.encode v)
  size a := (get a).foldr (fun v n => sizeDelimited number (m.size v) + n) 0
  merge budget wire a b :=
    (readMessage m budget wire m.empty b).map fun (v, r) => (set (get a ++ [v]) a, r)

end Field
end ChatBackup
