import ChatBackup.Proofs.Delivery
import ChatBackup.Record.Stream

/-!
# The forms of a length

A number in base 128 has many written forms, since groups of zeros may follow its highest group.
`Varint.Form` says which byte strings are forms of a number of 64 bits, without a look at how they
are read. What reading a length comes to is told by the bytes at the front:

> `exists_length`: a byte string begins with a form, or it ends inside of one, or it begins with ten
> bytes that are too large for one.
> `form_encode`: what is written of a number is one of its forms.
> `readLength_form`, `readLength_unfinished`, `readLength_overflow`: what is read of each, and just
> how many bytes that takes.

All three come from one fact: bytes that ask for another one are taken in, whatever follows them
(`readLengthWithin_unfinished`).
-/

namespace ChatBackup

open Source

namespace Varint

/-- The number whose groups of seven bits stand in the bytes, the lowest first. -/
def value : Bytes → Nat
  | [] => 0
  | b :: r => b.toNat % 128 + 128 * value r

/-- Every byte asks for another one. -/
def Unfinished (p : Bytes) : Prop := ∀ b ∈ p, 128 ≤ b

theorem unfinished_nil : Unfinished [] := fun _ h => nomatch h

/-- The byte string is a form of the number, perhaps longer than needed: at most ten bytes of which
just the last one does not ask for another. A tenth byte has a single bit. -/
inductive Form : Bytes → Nat → Prop where
  | mk {more : Bytes} {last : UInt8} : Unfinished more → last < 128 → more.length < maxLength →
    (more.length + 1 = maxLength → last ≤ 1) → Form (more ++ [last]) (value (more ++ [last]))

/-- A group is worth 128 times the one below. -/
theorem shiftLeft_group (m i : Nat) : m <<< (7 * (i + 1)) = 128 * m <<< (7 * i) := by
  rw [Nat.mul_succ, Nat.add_comm, Nat.shiftLeft_add, Nat.shiftLeft_eq m 7, Nat.shiftLeft_eq,
    Nat.shiftLeft_eq, Nat.mul_comm m]
  exact Nat.mul_assoc 128 m _

theorem value_append (p q : Bytes) : value (p ++ q) = value p + value q <<< (7 * p.length) := by
  induction p with
  | nil => rw [value, List.nil_append, Nat.zero_add]; rfl
  | cons b p ih =>
    rw [List.cons_append, value, value, ih, List.length_cons, shiftLeft_group, Nat.mul_add,
      Nat.add_assoc]

theorem value_lt (p : Bytes) : value p < 1 <<< (7 * p.length) := by
  induction p with
  | nil => exact Nat.one_pos
  | cons b p ih =>
    rw [value, List.length_cons, shiftLeft_group]
    omega

theorem value_singleton {b : UInt8} (h : b < 128) : value [b] = b.toNat := by
  have h128 : b.toNat < 128 := UInt8.lt_iff_toNat_lt.mp h
  rw [value, value, Nat.mul_zero, Nat.add_zero, Nat.mod_eq_of_lt h128]

/-- The last group stands above the others. -/
theorem value_concat (more : Bytes) {last : UInt8} (h : last < 128) :
    value (more ++ [last]) = value more + last.toNat <<< (7 * more.length) := by
  rw [value_append, value_singleton h]

/-- One byte is a form. -/
theorem Form.single {b : UInt8} (h : b < 128) : Form [b] b.toNat := by
  have hform := Form.mk unfinished_nil h (by decide) fun hten => nomatch hten
  rw [List.nil_append, value_singleton h] at hform
  exact hform

theorem Form.length_pos {p : Bytes} {n : Nat} (h : Form p n) : 0 < p.length := by
  cases h with
  | mk _ _ _ _ =>
    rw [List.length_append]
    exact Nat.succ_pos _

/-- No bit of a form is lost in 64 bits. -/
theorem Form.lt {p : Bytes} {n : Nat} (h : Form p n) : n < UInt64.size := by
  cases h with
  | @mk more last hmore hlast hlen htenth =>
    have hsize : UInt64.size = 2 * 1 <<< (7 * 9) := rfl
    rcases Nat.lt_or_eq_of_le (Nat.le_of_lt_succ hlen) with h9 | h9
    · -- nine groups at most stay below 63 bits
      have hlow := value_lt (more ++ [last])
      have hbits : 1 <<< (7 * (more ++ [last]).length) ≤ 1 <<< (7 * 9) := by
        rw [List.length_append, List.length_singleton, Nat.one_shiftLeft, Nat.one_shiftLeft]
        exact Nat.pow_le_pow_right (by decide) (Nat.mul_le_mul_left 7 h9)
      omega
    · have h1 : last.toNat ≤ 1 := UInt8.le_iff_toNat_le.mp (htenth (congrArg (· + 1) h9))
      have hlow := value_lt more
      rw [h9] at hlow
      rw [value_concat more hlast, h9]
      omega

/-- A byte string begins with bytes that ask for another one, at most `k` of them, and then it ends,
or a byte follows that does not or that is one too many. -/
theorem exists_unfinished : ∀ (k : Nat) (s : Bytes), ∃ more r, s = more ++ r ∧ Unfinished more ∧
    more.length ≤ k ∧ (r = [] ∨ ∃ last rest, r = last :: rest ∧
      (last < 128 ∨ more.length = k)) := by
  intro k
  induction k with
  | zero =>
    intro s
    refine ⟨[], s, rfl, unfinished_nil, Nat.le_refl _, ?_⟩
    cases s with
    | nil => exact Or.inl rfl
    | cons b r => exact Or.inr ⟨b, r, rfl, Or.inr rfl⟩
  | succ k ih =>
    intro s
    cases s with
    | nil => exact ⟨[], [], rfl, unfinished_nil, Nat.zero_le _, Or.inl rfl⟩
    | cons b s =>
      by_cases hb : b < 128
      · exact ⟨[], b :: s, rfl, unfinished_nil, Nat.zero_le _, Or.inr ⟨b, s, rfl, Or.inl hb⟩⟩
      · obtain ⟨more, r, rfl, hmore, hlen, hr⟩ := ih s
        refine ⟨b :: more, r, rfl, ?_, Nat.succ_le_succ hlen, ?_⟩
        · intro x hx
          rcases List.mem_cons.mp hx with rfl | hx
          · exact UInt8.not_lt.mp hb
          · exact hmore x hx
        · refine hr.imp id ?_
          rintro ⟨last, rest, hlast, hend⟩
          exact ⟨last, rest, hlast, hend.imp id (congrArg (· + 1))⟩

/-- A byte string begins with a form, or it ends inside of one, or it begins with ten bytes that are
too large for one. -/
theorem exists_length (s : Bytes) :
    (Unfinished s ∧ s.length < maxLength) ∨
    (∃ more last rest, s = more ++ last :: rest ∧ Unfinished more ∧
      more.length + 1 = maxLength ∧ 1 < last) ∨
    ∃ p n rest, s = p ++ rest ∧ Form p n := by
  have hmax : maxLength = 10 := rfl
  obtain ⟨more, r, rfl, hmore, hlen, hr⟩ := exists_unfinished 9 s
  rcases hr with rfl | ⟨last, rest, rfl, hlast⟩
  · rw [List.append_nil]
    exact Or.inl ⟨hmore, by omega⟩
  · right
    -- the tenth byte, and only that, may be too large
    by_cases hover : more.length = 9 ∧ 1 < last
    · exact Or.inl ⟨more, last, rest, rfl, hmore, by omega, hover.2⟩
    · refine Or.inr ⟨more ++ [last], _, rest, by rw [List.append_assoc]; rfl,
        .mk hmore ?_ (by omega) ?_⟩
      · rcases hlast with hlast | h9
        · exact hlast
        · have hle : last ≤ 1 := UInt8.not_lt.mp fun h1 => hover ⟨h9, h1⟩
          exact UInt8.lt_of_le_of_lt hle (by decide)
      · intro hten
        exact UInt8.not_lt.mp fun h1 => hover ⟨by omega, h1⟩

/-- A written number is its groups, all but the last asking for another one. -/
theorem exists_encode (n : Nat) : ∃ (more : Bytes) (last : UInt8), encode n = more ++ [last] ∧
    Unfinished more ∧ last < 128 ∧ value (more ++ [last]) = n := by
  induction n using Nat.strongRecOn with
  | ind n ih =>
    by_cases h : n < 128
    · refine ⟨[], UInt8.ofNat n, encode_of_lt h, unfinished_nil, last_lt h, ?_⟩
      rw [List.nil_append, value_singleton (last_lt h), toNat_last h]
    · obtain ⟨more, last, hencode, hmore, hlast, hvalue⟩ := ih (n / 128) (by omega)
      refine ⟨UInt8.ofNat (n % 128 + 128) :: more, last, ?_, ?_, hlast, ?_⟩
      · rw [encode_of_le (Nat.le_of_not_lt h), hencode, List.cons_append]
      · intro x hx
        rcases List.mem_cons.mp hx with rfl | hx
        · exact UInt8.not_lt.mp (not_more_lt n)
        · exact hmore x hx
      · rw [List.cons_append, value, hvalue, toNat_more]
        omega

theorem length_encode_le {n : Nat} (h : n < UInt64.size) : (encode n).length ≤ maxLength := by
  have hbits : n.log2 < 64 := by
    rcases Nat.eq_zero_or_pos n with rfl | hpos
    · decide
    · exact (Nat.log2_lt (Nat.ne_of_gt hpos)).mpr h
  have hmax : maxLength = 10 := rfl
  rw [length_encode n h, size, hmax]
  omega

/-- What is written of a number of 64 bits is one of its forms. -/
theorem form_encode {n : Nat} (h : n < UInt64.size) : Form (encode n) n := by
  obtain ⟨more, last, hencode, hmore, hlast, hvalue⟩ := exists_encode n
  have hlen := length_encode_le h
  rw [hencode, List.length_append, List.length_singleton] at hlen
  rw [hencode]
  have hform : Form (more ++ [last]) (value (more ++ [last])) := by
    refine .mk hmore hlast hlen ?_
    intro hten
    -- two or more in the tenth group would be too large
    have h9 : more.length = 9 := Nat.succ.inj hten
    have hsize : UInt64.size = 2 * 1 <<< (7 * 9) := rfl
    rw [value_concat more hlast, h9] at hvalue
    rw [UInt8.le_iff_toNat_le]
    show last.toNat ≤ 1
    omega
  rw [hvalue] at hform
  exact hform

/-- The front part of a form asks for more. -/
theorem Form.unfinished_take {p : Bytes} {n k : Nat} (h : Form p n) (hk : k < p.length) :
    Unfinished (p.take k) ∧ (p.take k).length = k ∧ k < maxLength := by
  cases h with
  | @mk more last hmore hlast hlen htenth =>
    rw [List.length_append, List.length_singleton] at hk
    have hle : k ≤ more.length := Nat.le_of_lt_succ hk
    rw [List.take_append_of_le_length hle]
    refine ⟨?_, List.length_take_of_le hle, Nat.lt_of_le_of_lt hle hlen⟩
    intro x hx
    exact hmore x (List.mem_of_mem_take hx)

end Varint

open Varint

theorem readLengthWithin_cons (left i v : Nat) (x : UInt8) (r : Bytes) :
    readLengthWithin (left + 1) i v (⟨x :: r⟩ : ByteSource) =
      if left = 0 && 1 < x then (.ok .overflow, ⟨r⟩)
      else if x < 128 then (.ok (.value (v + (x.toNat % 128) <<< (7 * i))), ⟨r⟩)
      else readLengthWithin left (i + 1) (v + (x.toNat % 128) <<< (7 * i)) ⟨r⟩ := by
  conv => lhs; unfold readLengthWithin
  rw [ByteSource.gather_eq]
  rfl

/-- The next group stands above those that were read. -/
theorem add_group (v a m i : Nat) :
    v + a <<< (7 * i) + m <<< (7 * (i + 1)) = v + (a + 128 * m) <<< (7 * i) := by
  rw [shiftLeft_group, Nat.shiftLeft_eq, Nat.shiftLeft_eq, Nat.shiftLeft_eq, Nat.add_mul,
    Nat.add_assoc, Nat.mul_assoc]

/-- Bytes that ask for another one are taken in, whatever follows them. -/
theorem readLengthWithin_unfinished (left : Nat) (r : Bytes) :
    ∀ {more : Bytes} (i v : Nat), Unfinished more →
      readLengthWithin (more.length + (left + 1)) i v (⟨more ++ r⟩ : ByteSource) =
        readLengthWithin (left + 1) (i + more.length) (v + value more <<< (7 * i)) ⟨r⟩ := by
  intro more
  induction more with
  | nil =>
    intro i v _
    rw [List.length_nil, Nat.zero_add, value, Nat.zero_shiftLeft]
    rfl
  | cons b more ih =>
    intro i v h
    have hb : ¬ b < 128 := UInt8.not_lt.mpr (h b List.mem_cons_self)
    have hmore : Unfinished more := fun x hx => h x (List.mem_cons_of_mem b hx)
    have hfuel : (b :: more).length + (left + 1) = more.length + (left + 1) + 1 := by
      rw [List.length_cons, Nat.add_right_comm]
    rw [hfuel, List.cons_append, readLengthWithin_cons, if_neg (by simp), if_neg hb, ih _ _ hmore,
      add_group, value, List.length_cons, Nat.add_right_comm, Nat.add_assoc]

theorem readLength_append {more : Bytes} (h : Unfinished more) (left : Nat)
    (hleft : more.length + (left + 1) = maxLength) (r : Bytes) :
    readLength (⟨more ++ r⟩ : ByteSource) =
      readLengthWithin (left + 1) more.length (value more) ⟨r⟩ := by
  rw [readLength, ← hleft, readLengthWithin_unfinished left r 0 0 h, Nat.zero_add, Nat.zero_add,
    Nat.mul_zero, Nat.shiftLeft_zero]

/-- The stream ends inside a form; it is taken to its end. -/
theorem readLength_unfinished {s : Bytes} (h : Unfinished s) (hlen : s.length < maxLength) :
    readLength (⟨s⟩ : ByteSource) =
      (.ok (if s.length = 0 then .cleanEnd else .cut s.length), ⟨[]⟩) := by
  obtain ⟨left, hleft⟩ := Nat.exists_eq_add_of_lt hlen
  have hread := readLength_append h left (by omega) []
  rw [List.append_nil, readLengthWithin, ByteSource.gather_eq] at hread
  exact hread

/-- Ten bytes are too large; they are taken, and nothing behind them. -/
theorem readLength_overflow {more rest : Bytes} {last : UInt8} (h : Unfinished more)
    (hlen : more.length + 1 = maxLength) (hlast : 1 < last) :
    readLength (⟨more ++ last :: rest⟩ : ByteSource) = (.ok .overflow, ⟨rest⟩) := by
  have hover : (decide (0 = 0) && decide (1 < last)) = true := by
    rw [decide_eq_true hlast]
    rfl
  rw [readLength_append h 0 hlen, readLengthWithin_cons, if_pos hover]

/-- A form is read as its number; it is taken, and nothing behind it. -/
theorem readLength_form {p : Bytes} {n : Nat} (h : Form p n) (rest : Bytes) :
    readLength (⟨p ++ rest⟩ : ByteSource) = (.ok (.value n), ⟨rest⟩) := by
  cases h with
  | @mk more last hmore hlast hlen htenth =>
    obtain ⟨left, hleft⟩ := Nat.exists_eq_add_of_lt hlen
    have hfits : ¬ (decide (left = 0) && decide (1 < last)) = true := by
      rw [Bool.and_eq_true, decide_eq_true_eq, decide_eq_true_eq]
      rintro ⟨h0, h1⟩
      exact UInt8.not_lt.mpr (htenth (by omega)) h1
    have hvalue : value more + (last.toNat % 128) <<< (7 * more.length) =
        value (more ++ [last]) := by
      have h128 : last.toNat < 128 := UInt8.lt_iff_toNat_lt.mp hlast
      rw [value_concat more hlast, Nat.mod_eq_of_lt h128]
    rw [List.append_assoc, List.singleton_append, readLength_append hmore left (by omega),
      readLengthWithin_cons, if_neg hfits, if_pos hlast, hvalue]

/-- A form tells where it ends, whatever follows. -/
theorem Varint.Form.unique {p q a b : Bytes} {n m : Nat} (hp : Form p n) (hq : Form q m)
    (h : p ++ a = q ++ b) : n = m ∧ a = b := by
  have hread := readLength_form hp a
  rw [h, readLength_form hq b] at hread
  cases hread
  exact ⟨rfl, rfl⟩

end ChatBackup
