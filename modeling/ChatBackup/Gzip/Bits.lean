import ChatBackup.Bytes

/-!
# Bits

Compressed data is a string of bits, eight to a byte with the lowest bit first. Numbers stand with
their lowest bit first, too. The main statement: packing the bits of whole bytes gives the bytes
back (`toBytes_ofBytes`).
-/

namespace ChatBackup

/-- A string of bits. -/
abbrev Bits := List Bool

namespace Bits

/-- The bits of a byte. -/
def ofByte (b : UInt8) : Bits :=
  [b &&& 1 != 0, b &&& 2 != 0, b &&& 4 != 0, b &&& 8 != 0,
   b &&& 16 != 0, b &&& 32 != 0, b &&& 64 != 0, b &&& 128 != 0]

/-- The byte with the given bits. -/
def byte (b0 b1 b2 b3 b4 b5 b6 b7 : Bool) : UInt8 :=
  (if b0 then 1 else 0) ||| (if b1 then 2 else 0) ||| (if b2 then 4 else 0)
    ||| (if b3 then 8 else 0) ||| (if b4 then 16 else 0) ||| (if b5 then 32 else 0)
    ||| (if b6 then 64 else 0) ||| (if b7 then 128 else 0)

/-- The bits of bytes followed by bits that stand after them. -/
def prepend (b : Bytes) (rest : Bits) : Bits := b.foldr (fun x r => ofByte x ++ r) rest

/-- The bits of bytes. -/
def ofBytes (b : Bytes) : Bits := prepend b []

/-- Packs bits into bytes; the last byte is filled up with zeros. -/
def toBytes : Bits → Bytes
  | b0 :: b1 :: b2 :: b3 :: b4 :: b5 :: b6 :: b7 :: rest =>
    byte b0 b1 b2 b3 b4 b5 b6 b7 :: toBytes rest
  | [] => []
  | b0 :: rest => [byte b0 (rest[0]?.getD false) (rest[1]?.getD false) (rest[2]?.getD false)
      (rest[3]?.getD false) (rest[4]?.getD false) (rest[5]?.getD false) false]

/-- Whether there are bits for a byte at least. -/
def holdByte (b : Bits) : Bool := !(b.drop 7).isEmpty

/-- The `width` lowest bits of a number. -/
def ofNat : Nat → Nat → Bits
  | 0, _ => []
  | width + 1, n => (n % 2 == 1) :: ofNat width (n / 2)

theorem holdByte_iff (b : Bits) : holdByte b = true ↔ 8 ≤ b.length := by
  simp only [holdByte, Bool.not_eq_true', List.isEmpty_eq_false_iff, ne_eq,
    List.drop_eq_nil_iff]
  omega

@[simp] theorem length_ofNat : ∀ (width n : Nat), (ofNat width n).length = width
  | 0, _ => rfl
  | width + 1, n => by simp [ofNat, length_ofNat width]

theorem prepend_eq (b : Bytes) (rest : Bits) : prepend b rest = ofBytes b ++ rest := by
  unfold ofBytes prepend
  induction b with
  | nil => rfl
  | cons x b ih => simp only [List.foldr_cons, ih, List.append_assoc]

@[simp] theorem ofBytes_nil : ofBytes [] = [] := rfl

@[simp] theorem ofBytes_cons (x : UInt8) (b : Bytes) :
    ofBytes (x :: b) = ofByte x ++ ofBytes b := rfl

/-- The bits of two strings of bytes stand one after the other. -/
theorem ofBytes_append (a b : Bytes) : ofBytes (a ++ b) = ofBytes a ++ ofBytes b := by
  rw [← prepend_eq]
  unfold ofBytes prepend
  rw [List.foldr_append]

@[simp] theorem length_ofBytes (b : Bytes) : (ofBytes b).length = 8 * b.length := by
  induction b with
  | nil => rfl
  | cons x b ih => simp [ofByte, ih]; omega

theorem toBytes_ofByte_append (x : UInt8) (rest : Bits) :
    toBytes (ofByte x ++ rest) = x :: toBytes rest := by
  have h : ∀ i : Fin 256, toBytes (ofByte (UInt8.ofFin i)) = [UInt8.ofFin i] := by
    decide +kernel
  have hx := h x.toFin
  rw [UInt8.ofFin_toFin] at hx
  simp only [ofByte, toBytes, List.cons.injEq, and_true] at hx
  simp only [ofByte, List.cons_append, List.nil_append, toBytes, hx]

/-- Packing the bits of bytes gives the bytes back. -/
theorem toBytes_ofBytes (b : Bytes) : toBytes (ofBytes b) = b := by
  induction b with
  | nil => rfl
  | cons x b ih => rw [ofBytes_cons, toBytes_ofByte_append, ih]

end Bits
end ChatBackup
