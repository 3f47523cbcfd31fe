/-!
# Byte strings

A byte string is a list of bytes. This file holds what every layer needs of them: the fixed-width
number forms (`littleEndian`, `bigEndian`) and `split?`, which takes an exact number of bytes off
the front. The main statements: a number form has the width asked for (`length_littleEndian`), and
`split?` loses nothing and gives exactly the length asked for (`split?_eq_some_iff`).
-/

namespace ChatBackup

/-- A byte string. -/
abbrev Bytes := List UInt8

namespace Bytes

/-- The `k` lowest bytes of `n`, lowest first. -/
def littleEndian : Nat → Nat → Bytes
  | 0, _ => []
  | k + 1, n => UInt8.ofNat n :: littleEndian k (n / 256)

/-- The `k` lowest bytes of `n`, highest first. -/
def bigEndian (k n : Nat) : Bytes := (littleEndian k n).reverse

/-- The number whose lowest byte comes first. -/
def ofLittleEndian : Bytes → Nat
  | [] => 0
  | b :: r => b.toNat + 256 * ofLittleEndian r

/-- The first `n` bytes and what follows them, or nothing if there are fewer. -/
def split? (n : Nat) (b : Bytes) : Option (Bytes × Bytes) :=
  let front := b.take n
  if front.length = n then some (front, b.drop n) else none

@[simp] theorem length_littleEndian : ∀ (k n : Nat), (littleEndian k n).length = k
  | 0, _ => rfl
  | k + 1, n => by simp [littleEndian, length_littleEndian k]

@[simp] theorem length_bigEndian (k n : Nat) : (bigEndian k n).length = k := by
  simp [bigEndian]

/-- Reading back the bytes of a number gives the number, cut to the width written. -/
theorem ofLittleEndian_littleEndian : ∀ (k n : Nat),
    ofLittleEndian (littleEndian k n) = n % 1 <<< (8 * k)
  | 0, n => by simp [littleEndian, ofLittleEndian, Nat.mod_one]
  | k + 1, n => by
    simp only [littleEndian, ofLittleEndian, ofLittleEndian_littleEndian k, Nat.one_shiftLeft]
    have h : (UInt8.ofNat n).toNat = n % 256 := by simp
    rw [h, Nat.mul_succ, Nat.pow_add, Nat.mul_comm (2 ^ (8 * k)), Nat.mod_mul]

/-- A split is exactly a way to write the string as a front of the length asked for and a rest. -/
theorem split?_eq_some_iff {n : Nat} {b front rest : Bytes} :
    split? n b = some (front, rest) ↔ b = front ++ rest ∧ front.length = n := by
  unfold split?
  constructor
  · intro h
    simp only at h
    split at h
    next hlen =>
      simp only [Option.some.injEq, Prod.mk.injEq] at h
      obtain ⟨rfl, rfl⟩ := h
      exact ⟨(List.take_append_drop n b).symm, hlen⟩
    next => simp at h
  · rintro ⟨rfl, rfl⟩
    simp

end Bytes
end ChatBackup
