import ChatBackup.Wire.Varint

/-!
# Field keys and decoding errors

Each field of an encoded message opens with a key: the field's number and the wire type that says
how its content is delimited. `DecodeError` records why decoding failed and through which fields.
-/

namespace ChatBackup

/-- How the content of a field is delimited. -/
inductive WireType where
  | varint
  | sixtyFourBit
  | lengthDelimited
  | startGroup
  | endGroup
  | thirtyTwoBit
  deriving DecidableEq, Repr

namespace WireType

/-- The number of a wire type. -/
def code : WireType → Nat
  | varint => 0
  | sixtyFourBit => 1
  | lengthDelimited => 2
  | startGroup => 3
  | endGroup => 4
  | thirtyTwoBit => 5

/-- The wire type with a given number. -/
def ofCode? : Nat → Option WireType
  | 0 => some varint
  | 1 => some sixtyFourBit
  | 2 => some lengthDelimited
  | 3 => some startGroup
  | 4 => some endGroup
  | 5 => some thirtyTwoBit
  | _ => none

/-- The name of a wire type in messages. -/
def name : WireType → String
  | varint => "Varint"
  | sixtyFourBit => "SixtyFourBit"
  | lengthDelimited => "LengthDelimited"
  | startGroup => "StartGroup"
  | endGroup => "EndGroup"
  | thirtyTwoBit => "ThirtyTwoBit"

theorem ofCode?_code (w : WireType) : ofCode? w.code = some w := by cases w <;> rfl

end WireType

/-- What is wrong with an encoded message. -/
inductive DecodeCause where
  /-- A number is cut, longer than ten bytes or above 64 bits. -/
  | invalidVarint
  /-- A key is above 32 bits. -/
  | invalidKey (key : Nat)
  /-- A key holds a wire type that does not exist. -/
  | invalidWireType (code : Nat)
  /-- A key holds field number zero. -/
  | zeroTag
  /-- A known field has another wire type than its own. -/
  | wireTypeMismatch (actual expected : WireType)
  /-- A field claims more bytes than there are. -/
  | underflow
  /-- A text is not valid UTF-8. -/
  | notUtf8
  /-- A field inside a submessage runs past the submessage's end. -/
  | lengthExceeded
  /-- A group ends that was not open. -/
  | endGroup
  /-- Submessages or groups are nested too deeply. -/
  | recursionLimit
  deriving DecidableEq, Repr

namespace DecodeCause

/-- The words for each cause. -/
def message : DecodeCause → String
  | invalidVarint => "invalid varint"
  | invalidKey key => "invalid key value: " ++ toString key
  | invalidWireType code => "invalid wire type value: " ++ toString code
  | zeroTag => "invalid tag value: 0"
  | wireTypeMismatch actual expected =>
    "invalid wire type: " ++ actual.name ++ " (expected " ++ expected.name ++ ")"
  | underflow => "buffer underflow"
  | notUtf8 => "invalid string value: data is not UTF-8 encoded"
  | lengthExceeded => "delimited length exceeded"
  | endGroup => "unexpected end group tag"
  | recursionLimit => "recursion limit reached"

end DecodeCause

/-- A failed decoding: its cause, and the message and field names that lead to it, innermost
first. -/
structure DecodeError where
  path : List (String × String) := []
  cause : DecodeCause
  deriving DecidableEq, Repr

namespace DecodeError

/-- The error as seen from a field that encloses it. -/
def within (message field : String) (e : DecodeError) : DecodeError :=
  { e with path := e.path ++ [(message, field)] }

/-- The path and the cause in words. -/
def message (e : DecodeError) : String :=
  "failed to decode Protobuf message: "
    ++ String.join (e.path.map fun (m, f) => m ++ "." ++ f ++ ": ") ++ e.cause.message

end DecodeError

/-- A field's number and wire type. -/
structure Key where
  number : Nat
  wire : WireType
  deriving DecidableEq, Repr

namespace Key

/-- The key as one number: the wire type in the three lowest bits. -/
def toNat (k : Key) : Nat := 8 * k.number + k.wire.code

/-- The written form of a key. -/
def encode (k : Key) : Bytes := Varint.encode k.toNat

/-- The length of the written form. -/
def size (k : Key) : Nat := Varint.size k.toNat

/-- Reads a key off the front. -/
def decode (b : Bytes) : Except DecodeCause (Key × Bytes) :=
  match Varint.decode b with
  | none => .error .invalidVarint
  | some (n, r) =>
    if UInt32.size ≤ n then .error (.invalidKey n)
    else
      match WireType.ofCode? (n % 8) with
      | none => .error (.invalidWireType (n % 8))
      | some w => if n / 8 = 0 then .error .zeroTag else .ok (⟨n / 8, w⟩, r)

/-- A key with a positive number of 29 bits reads back. -/
theorem decode_encode (k : Key) (rest : Bytes) (h0 : 0 < k.number) (h : k.number < 1 <<< 29) :
    decode (encode k ++ rest) = .ok (k, rest) := by
  have hc : k.wire.code < 8 := by cases k.wire <;> decide
  have hn : k.toNat < UInt32.size := by
    simp only [toNat, UInt32.size]; omega
  have hmod : k.toNat % 8 = k.wire.code := by simp only [toNat]; omega
  have hdiv : k.toNat / 8 = k.number := by simp only [toNat]; omega
  rw [decode, encode, Varint.decode_encode (Nat.lt_trans hn (by decide))]
  simp only [hmod, hdiv, WireType.ofCode?_code]
  rw [if_neg (by omega), if_neg (by omega)]

end Key
end ChatBackup
