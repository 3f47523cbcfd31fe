import ChatBackup.Wire.Key

/-!
# Skipping unknown fields

A reader steps over a field it does not know by its wire type alone. Groups hold fields up to the
end mark with their own number; every group inside takes one from a budget, which bounds the
nesting.
-/

namespace ChatBackup

/-- The nesting allowed for submessages and groups together. -/
def recursionBudget : Nat := 100

/-- Drops `n` bytes. -/
def skipBytes (n : Nat) (b : Bytes) : Except DecodeCause Bytes :=
  match b.split? n with
  | some (_, r) => .ok r
  | none => .error .underflow

/-- Skips the fields of a group through its end mark; `skip` steps over one field inside. Each
round takes a key, so `fuel > b.length` always suffices. -/
def skipGroup (skip : WireType → Nat → Bytes → Except DecodeCause Bytes) :
    Nat → Nat → Bytes → Except DecodeCause Bytes
  | 0, _, _ => .error .underflow
  | fuel + 1, number, b =>
    match Key.decode b with
    | .error e => .error e
    | .ok (k, r) =>
      if k.wire = .endGroup then
        if k.number = number then .ok r else .error .endGroup
      else
        match skip k.wire k.number r with
        | .error e => .error e
        | .ok r' => skipGroup skip fuel number r'

/-- Skips the content of a field whose key was read already. -/
def skipField : Nat → WireType → Nat → Bytes → Except DecodeCause Bytes
  | 0, _, _, _ => .error .recursionLimit
  | budget + 1, wire, number, b =>
    match wire with
    | .varint =>
      match Varint.decode b with
      | some (_, r) => .ok r
      | none => .error .invalidVarint
    | .sixtyFourBit => skipBytes 8 b
    | .thirtyTwoBit => skipBytes 4 b
    | .lengthDelimited =>
      match Varint.decode b with
      | some (n, r) => skipBytes n r
      | none => .error .invalidVarint
    | .startGroup => skipGroup (skipField budget) (b.length + 1) number b
    | .endGroup => .error .endGroup

end ChatBackup
