import ChatBackup.Bytes

/-!
# Base-128 numbers

A number is written in groups of seven bits, lowest group first; every byte but the last has its
top bit set. A reader takes at most ten bytes, the tenth of which is at most 1, so what it reads
stays below 2⁶⁴; longer forms than needed are accepted.

The main statements: `decode_encode`, a number below 2⁶⁴ reads back and leaves what follows,
and `length_encode`, its length is the closed form `size`.
-/

namespace ChatBackup.Varint

/-- The most bytes a number takes. -/
def maxLength : Nat := 10

/-- The shortest written form of a number. -/
def encode (n : Nat) : Bytes :=
  if n < 128 then [UInt8.ofNat n] else UInt8.ofNat (n % 128 + 128) :: encode (n / 128)
termination_by n
decreasing_by omega

/-- The length of the written form, from the number of significant bits. -/
def size (n : Nat) : Nat := (n.log2 * 9 + 73) / 64

/-- Reads a number of at most `left` bytes; the last of them is at most 1. -/
def decodeWithin : Nat → Bytes → Option (Nat × Bytes)
  | 0, _ => none
  | _ + 1, [] => none
  | left + 1, b :: r =>
    -- sixty-three bits are told already, so one is left
    if left = 0 && 1 < b then none
    else if b < 128 then some (b.toNat, r)
    else (decodeWithin left r).map fun (v, r) => (b.toNat % 128 + 128 * v, r)

/-- Reads a number off the front. -/
def decode (b : Bytes) : Option (Nat × Bytes) := decodeWithin maxLength b

theorem encode_of_lt {n : Nat} (h : n < 128) : encode n = [UInt8.ofNat n] := by
  rw [encode, if_pos h]

theorem encode_of_le {n : Nat} (h : 128 ≤ n) :
    encode n = UInt8.ofNat (n % 128 + 128) :: encode (n / 128) := by
  rw [encode, if_neg (by omega)]

theorem toNat_last {n : Nat} (h : n < 128) : (UInt8.ofNat n).toNat = n := by
  rw [UInt8.toNat_ofNat']
  exact Nat.mod_eq_of_lt (by omega)

/-- The byte of the last group has its top bit clear. -/
theorem last_lt {n : Nat} (h : n < 128) : UInt8.ofNat n < 128 := by
  rw [UInt8.lt_iff_toNat_lt, toNat_last h]
  exact h

theorem toNat_more (n : Nat) : (UInt8.ofNat (n % 128 + 128)).toNat = n % 128 + 128 := by
  rw [UInt8.toNat_ofNat']
  exact Nat.mod_eq_of_lt (by omega)

/-- The byte of any other group has its top bit set. -/
theorem not_more_lt (n : Nat) : ¬ UInt8.ofNat (n % 128 + 128) < 128 := by
  have h128 : (128 : UInt8).toNat = 128 := rfl
  rw [UInt8.lt_iff_toNat_lt, toNat_more]
  omega

/-- After a group has been taken the number fits one group less. -/
theorem div_lt {left n : Nat} (h : n < 1 <<< (7 * (left + 1) + 1)) :
    n / 128 < 1 <<< (7 * left + 1) := by
  rw [show 7 * (left + 1) + 1 = (7 * left + 1) + 7 by omega, Nat.one_shiftLeft, Nat.pow_add] at h
  rw [Nat.one_shiftLeft]
  exact Nat.div_lt_of_lt_mul (by omega)

/-- The last byte that is allowed is one at most. -/
theorem not_one_lt {n : Nat} (h : n < 2) : ¬ (1 : UInt8) < UInt8.ofNat n := by
  have hone : (1 : UInt8).toNat = 1 := rfl
  rw [UInt8.lt_iff_toNat_lt, toNat_last (by omega)]
  omega

/-- A number that fits the groups still allowed reads back. -/
theorem decodeWithin_encode : ∀ (left n : Nat) (rest : Bytes), n < 1 <<< (7 * left + 1) →
    decodeWithin (left + 1) (encode n ++ rest) = some (n, rest)
  | 0, n, rest, h => by
    have hn : n < 2 := by simpa using h
    have h128 : n < 128 := by omega
    rw [encode_of_lt h128]
    simp [decodeWithin, not_one_lt hn, last_lt h128, Nat.mod_eq_of_lt (show n < 256 by omega)]
  | left + 1, n, rest, h => by
    by_cases hn : n < 128
    · rw [encode_of_lt hn]
      simp [decodeWithin, last_lt hn, Nat.mod_eq_of_lt (show n < 256 by omega)]
    · have ih := decodeWithin_encode left (n / 128) rest (div_lt h)
      rw [encode_of_le (by omega), List.cons_append, decodeWithin, if_neg (by simp),
        if_neg (not_more_lt n), ih]
      simp only [Option.map_some, toNat_more]
      congr 2
      omega

/-- A number of 64 bits reads back, whatever follows it. -/
theorem decode_encode {n : Nat} (h : n < UInt64.size) (rest : Bytes) :
    decode (encode n ++ rest) = some (n, rest) :=
  decodeWithin_encode 9 n rest h

private theorem log2_div_128 {n : Nat} (h : 128 ≤ n) : n.log2 = (n / 128).log2 + 7 := by
  have step : ∀ m, 2 ≤ m → m.log2 = (m / 2).log2 + 1 := fun m hm => by
    rw [Nat.log2_def, if_pos hm]
  rw [step n (by omega), step (n / 2) (by omega), step (n / 2 / 2) (by omega),
    step (n / 2 / 2 / 2) (by omega), step (n / 2 / 2 / 2 / 2) (by omega),
    step (n / 2 / 2 / 2 / 2 / 2) (by omega), step (n / 2 / 2 / 2 / 2 / 2 / 2) (by omega)]
  simp only [Nat.div_div_eq_div_mul]

/-- The closed form is the length, for every number of 64 bits. -/
theorem length_encode (n : Nat) (h : n < UInt64.size) : (encode n).length = size n := by
  by_cases hn : n < 128
  · have : n.log2 < 7 := by
      by_cases h0 : n = 0
      · subst h0; decide
      · exact (Nat.log2_lt h0).2 hn
    rw [encode_of_lt hn, size, List.length_singleton]
    omega
  · have hlt : n / 128 < 2 ^ 57 := Nat.div_lt_of_lt_mul h
    have hlog : (n / 128).log2 < 57 := (Nat.log2_lt (by omega)).2 hlt
    rw [encode_of_le (by omega), List.length_cons, length_encode (n / 128) (by omega), size, size,
      log2_div_128 (n := n) (by omega)]
    omega
termination_by n
decreasing_by omega

end ChatBackup.Varint
