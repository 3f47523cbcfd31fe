import ChatBackup.Proofs.LengthForms
import ChatBackup.Proofs.Reading
import Mathlib.Algebra.GroupWithZero.Nat

/-!
# Reading numbers in base 128

What a number is read from, with its conditions written out byte by byte (`Varint.Spells`): one to
ten bytes of which just the last one does not ask for another, the tenth at most one, and the sum of
the groups of seven bits.

> `length_reading_exact`: a number is read from a source just if such bytes come first, and just
> these are taken. The other results are told by the bytes in the same way, so that reading agrees
> with decoding in memory. No bit of a number is lost in a word of 64 bits, and the rounds of
> reading never run through.

`LengthRead.Front` says what byte strings come to, without a look at how they are read. What is
known of the forms of a length carries over to it, and from there to any source.
-/

namespace ChatBackup

open Source

namespace Varint

/-! ## Forms byte by byte -/

/-- The bytes are a form of the number. -/
structure Spells (p : Bytes) (n : Nat) : Prop where
  one_le : 1 ≤ p.length
  le_ten : p.length ≤ 10
  /-- A byte asks for another one just if one follows. -/
  continues : ∀ (i : Nat) (h : i < p.length), 128 ≤ p[i] ↔ i + 1 < p.length
  /-- Of a tenth byte only the lowest bit may be set. -/
  tenth : ∀ (h : 9 < p.length), p[9] ≤ 1
  /-- The groups of seven bits, the lowest first. -/
  sum : n = (p.mapIdx fun i b => b.toNat % 128 * 2 ^ (7 * i)).sum

theorem sum_groups (p : Bytes) (k : Nat) :
    (p.mapIdx fun i b => b.toNat % 128 * 2 ^ (7 * (i + k))).sum = value p * 2 ^ (7 * k) := by
  induction p generalizing k with
  | nil => rw [List.mapIdx_nil, value, Nat.zero_mul]; rfl
  | cons b p ih =>
    have hshift : (fun (i : Nat) (b : UInt8) => b.toNat % 128 * 2 ^ (7 * (i + 1 + k))) =
        fun i b => b.toNat % 128 * 2 ^ (7 * (i + (k + 1))) := by
      funext i b
      rw [Nat.add_assoc, Nat.add_comm 1 k]
    have hpow : 2 ^ (7 * (k + 1)) = 128 * 2 ^ (7 * k) := by
      rw [Nat.mul_succ, Nat.pow_add, Nat.mul_comm]
    rw [List.mapIdx_cons, List.sum_cons, hshift, ih (k + 1), value, Nat.zero_add, hpow,
      Nat.add_mul, ← Nat.mul_assoc, Nat.mul_comm (value p) 128]

/-- The value of bytes is the sum of their groups. -/
theorem value_eq_sum (p : Bytes) :
    value p = (p.mapIdx fun i b => b.toNat % 128 * 2 ^ (7 * i)).sum := by
  have h := sum_groups p 0
  rw [Nat.mul_zero, Nat.pow_zero, Nat.mul_one] at h
  exact h.symm

theorem Form.spells {p : Bytes} {n : Nat} (h : Form p n) : Spells p n := by
  cases h with
  | @mk more last hmore hlast hlen htenth =>
    have hlength : (more ++ [last]).length = more.length + 1 := List.length_append
    refine ⟨by omega, by rw [hlength]; exact hlen, ?_, ?_, value_eq_sum _⟩
    · intro i hi
      rw [hlength] at hi ⊢
      rcases Nat.lt_or_eq_of_le (Nat.le_of_lt_succ hi) with hfront | rfl
      · rw [List.getElem_append_left hfront]
        exact iff_of_true (hmore _ (List.getElem_mem hfront)) (Nat.succ_lt_succ hfront)
      · rw [List.getElem_concat_length rfl]
        exact iff_of_false (UInt8.not_le.mpr hlast) (Nat.lt_irrefl _)
    · intro h9
      have hmax : maxLength = 10 := rfl
      have hnine : 9 = more.length := by omega
      have hten : (more ++ [last])[9] = last := List.getElem_concat_length hnine h9
      rw [hten]
      exact htenth (by omega)

theorem Spells.form {p : Bytes} {n : Nat} (h : Spells p n) : Form p n := by
  obtain ⟨hone, hlen, hcontinues, htenth, hsum⟩ := h
  have hne : p ≠ [] := by
    rintro rfl
    cases hone
  obtain ⟨more, last, rfl⟩ : ∃ more last, p = more ++ [last] :=
    ⟨p.dropLast, p.getLast hne, (List.dropLast_concat_getLast hne).symm⟩
  have hlength : (more ++ [last]).length = more.length + 1 := List.length_append
  have hmax : maxLength = 10 := rfl
  rw [hsum, ← value_eq_sum]
  refine .mk ?_ ?_ (by omega) ?_
  · intro x hx
    obtain ⟨i, hi, rfl⟩ := List.getElem_of_mem hx
    have hbig := (hcontinues i (by omega)).mpr (by omega)
    rwa [List.getElem_append_left hi] at hbig
  · have hsmall := mt (hcontinues more.length (by omega)).mp (by omega)
    rw [List.getElem_concat_length rfl] at hsmall
    exact UInt8.not_le.mp hsmall
  · intro hten
    have hnine : 9 = more.length := by omega
    have hlast := htenth (by omega)
    have heq : (more ++ [last])[9] = last := List.getElem_concat_length hnine (by omega)
    rwa [heq] at hlast

theorem form_iff_spells {p : Bytes} {n : Nat} : Form p n ↔ Spells p n :=
  ⟨Form.spells, Spells.form⟩

/-! ## In a word of 64 bits -/

/-- The groups put into a word of 64 bits one after another, each above the ones before. -/
def word (p : Bytes) : UInt64 :=
  p.zipIdx.foldl (fun w (b, i) => w ||| (b &&& 0x7F).toUInt64 <<< UInt64.ofNat (7 * i)) 0

/-- Another group goes above the bits that are there. -/
theorem toNat_or_group {w : UInt64} {b : UInt8} {k : Nat} (hk : k ≤ 9)
    (hw : w.toNat < 2 ^ (7 * k)) (hfits : b.toNat % 128 * 2 ^ (7 * k) < 2 ^ 64) :
    (w ||| (b &&& 0x7F).toUInt64 <<< UInt64.ofNat (7 * k)).toNat =
      w.toNat + b.toNat % 128 * 2 ^ (7 * k) := by
  have hgroup : (b &&& 0x7F).toNat = b.toNat % 128 := by
    rw [UInt8.toNat_and]
    exact Nat.and_two_pow_sub_one_eq_mod b.toNat 7
  have hshift : 7 * k % 2 ^ 64 % 64 = 7 * k := by omega
  rw [UInt64.toNat_or, UInt64.toNat_shiftLeft, UInt8.toNat_toUInt64, hgroup, UInt64.toNat_ofNat',
    hshift, Nat.shiftLeft_eq, Nat.mod_eq_of_lt hfits, ← Nat.shiftLeft_eq, Nat.or_comm,
    ← Nat.shiftLeft_add_eq_or_of_lt hw, Nat.add_comm]

theorem toNat_foldl_group (p : Bytes) :
    ∀ {w : UInt64} {k : Nat}, k + p.length ≤ 10 → w.toNat < 2 ^ (7 * k) →
      w.toNat + value p * 2 ^ (7 * k) < 2 ^ 64 →
      ((p.zipIdx k).foldl
        (fun w (b, i) => w ||| (b &&& 0x7F).toUInt64 <<< UInt64.ofNat (7 * i)) w).toNat =
        w.toNat + value p * 2 ^ (7 * k) := by
  induction p with
  | nil =>
    intro w k _ _ _
    rw [value, Nat.zero_mul]
    rfl
  | cons b p ih =>
    intro w k hlen hw hfits
    rw [List.length_cons] at hlen
    have hpow : 2 ^ (7 * (k + 1)) = 128 * 2 ^ (7 * k) := by
      rw [Nat.mul_succ, Nat.pow_add, Nat.mul_comm]
    have hsplit : value (b :: p) * 2 ^ (7 * k) =
        b.toNat % 128 * 2 ^ (7 * k) + value p * 2 ^ (7 * (k + 1)) := by
      rw [value, Nat.add_mul, hpow, ← Nat.mul_assoc, Nat.mul_comm (value p) 128]
    rw [hsplit] at hfits ⊢
    have hor := toNat_or_group (b := b) (by omega) hw (by omega)
    have hbelow : b.toNat % 128 * 2 ^ (7 * k) ≤ 127 * 2 ^ (7 * k) :=
      Nat.mul_le_mul_right _ (Nat.le_of_lt_succ (Nat.mod_lt _ (by decide)))
    rw [List.zipIdx_cons, List.foldl_cons, ih (by omega) (by rw [hor, hpow]; omega)
      (by rw [hor]; omega), hor, Nat.add_assoc]

/-- The word holds the number that the bytes are a form of. -/
theorem Form.toNat_word {p : Bytes} {n : Nat} (h : Form p n) : (word p).toNat = n := by
  have hlt := h.lt
  have hlen := h.spells.le_ten
  obtain rfl : n = value p := by rw [value_eq_sum, h.spells.sum]
  have hzero : (0 : UInt64).toNat = 0 := rfl
  have hfold := toNat_foldl_group p (w := 0) (k := 0) (by omega) (by decide)
    (by rw [hzero, Nat.mul_zero, Nat.pow_zero, Nat.mul_one, Nat.zero_add]; exact hlt)
  rw [Nat.mul_zero, Nat.pow_zero, Nat.mul_one, hzero, Nat.zero_add] at hfold
  exact hfold

/-! ## In memory -/

/-- Bytes that ask for another one are taken in, whatever follows them. -/
theorem decodeWithin_unfinished {more : Bytes} (h : Unfinished more) (left : Nat) (r : Bytes) :
    decodeWithin (more.length + (left + 1)) (more ++ r) =
      (decodeWithin (left + 1) r).map fun x =>
        (value more + x.1 <<< (7 * more.length), x.2) := by
  induction more with
  | nil =>
    simp only [List.length_nil, Nat.zero_add, List.nil_append, value, Nat.mul_zero,
      Nat.shiftLeft_zero]
    exact Option.map_id'.symm
  | cons b more ih =>
    have hb : ¬ b < 128 := UInt8.not_lt.mpr (h b List.mem_cons_self)
    have hmore : Unfinished more := fun x hx => h x (List.mem_cons_of_mem b hx)
    have hfuel : (b :: more).length + (left + 1) = more.length + (left + 1) + 1 := by
      rw [List.length_cons, Nat.add_right_comm]
    rw [hfuel, List.cons_append, decodeWithin, if_neg (by simp), if_neg hb, ih hmore,
      Option.map_map]
    congr 1
    funext x
    show (_, x.2) = (_, x.2)
    rw [value, List.length_cons, shiftLeft_group, Nat.mul_add, Nat.add_assoc]

theorem decode_unfinished {s : Bytes} (h : Unfinished s) (hlen : s.length < maxLength) :
    decode s = none := by
  obtain ⟨left, hleft⟩ := Nat.exists_eq_add_of_lt hlen
  have hdecode := decodeWithin_unfinished h left []
  rw [List.append_nil, decodeWithin, Option.map_none] at hdecode
  rw [decode, hleft, Nat.add_assoc, hdecode]

theorem decode_overflow {more rest : Bytes} {last : UInt8} (h : Unfinished more)
    (hlen : more.length + 1 = maxLength) (hlast : 1 < last) :
    decode (more ++ last :: rest) = none := by
  have hover : (decide (0 = 0) && decide (1 < last)) = true := by
    rw [decide_eq_true hlast]
    rfl
  rw [decode, ← hlen, decodeWithin_unfinished h 0, decodeWithin, if_pos hover]
  rfl

theorem decode_form {p : Bytes} {n : Nat} (h : Form p n) (rest : Bytes) :
    decode (p ++ rest) = some (n, rest) := by
  cases h with
  | @mk more last hmore hlast hlen htenth =>
    obtain ⟨left, hleft⟩ := Nat.exists_eq_add_of_lt hlen
    have hfits : ¬ (decide (left = 0) && decide (1 < last)) = true := by
      rw [Bool.and_eq_true, decide_eq_true_eq, decide_eq_true_eq]
      rintro ⟨h0, h1⟩
      exact UInt8.not_lt.mpr (htenth (by omega)) h1
    rw [decode, hleft, Nat.add_assoc, List.append_assoc, List.singleton_append,
      decodeWithin_unfinished hmore left, decodeWithin, if_neg hfits, if_pos hlast,
      Option.map_some, value_concat more hlast]

/-- A number is decoded from its forms and from nothing else. -/
theorem decode_eq_some_iff {s rest : Bytes} {n : Nat} :
    decode s = some (n, rest) ↔ ∃ p, Form p n ∧ s = p ++ rest := by
  constructor
  · intro h
    rcases exists_length s with ⟨hmore, hlen⟩ | ⟨more, last, behind, rfl, hmore, hlen, hlast⟩ |
      ⟨p, m, behind, rfl, hform⟩
    · rw [decode_unfinished hmore hlen] at h
      cases h
    · rw [decode_overflow hmore hlen hlast] at h
      cases h
    · rw [decode_form hform] at h
      cases h
      exact ⟨p, hform, rfl⟩
  · rintro ⟨p, hform, rfl⟩
    exact decode_form hform rest

end Varint

open Varint

/-! ## What a byte string comes to -/

/-- What reading a number comes to if the bytes to come are given, and the bytes that it leaves. -/
inductive LengthRead.Front : Bytes → LengthRead → Bytes → Prop where
  | value {p rest : Bytes} {n : Nat} : Form p n → Front (p ++ rest) (.value n) rest
  | cleanEnd : Front [] .cleanEnd []
  | cut {s : Bytes} : Unfinished s → 0 < s.length → s.length < maxLength →
    Front s (.cut s.length) []
  | overflow {more rest : Bytes} {last : UInt8} : Unfinished more → more.length + 1 = maxLength →
    1 < last → Front (more ++ last :: rest) .overflow rest

namespace LengthRead

variable {s rest : Bytes} {r : LengthRead}

theorem Front.readLength_bytes (h : Front s r rest) :
    readLength (⟨s⟩ : ByteSource) = (.ok r, ⟨rest⟩) := by
  cases h with
  | value hform => exact readLength_form hform rest
  | cleanEnd => exact readLength_unfinished unfinished_nil (by decide)
  | cut hmore hpos hlen =>
    rw [readLength_unfinished hmore hlen, if_neg (Nat.ne_of_gt hpos)]
  | overflow hmore hlen hlast => exact readLength_overflow hmore hlen hlast

theorem exists_front (s : Bytes) : ∃ r rest, Front s r rest := by
  rcases exists_length s with ⟨hmore, hlen⟩ | ⟨more, last, behind, rfl, hmore, hlen, hlast⟩ |
    ⟨p, n, behind, rfl, hform⟩
  · rcases Nat.eq_zero_or_pos s.length with h0 | hpos
    · obtain rfl : s = [] := List.length_eq_zero_iff.mp h0
      exact ⟨_, _, .cleanEnd⟩
    · exact ⟨_, _, .cut hmore hpos hlen⟩
  · exact ⟨_, _, .overflow hmore hlen hlast⟩
  · exact ⟨_, _, .value hform⟩

/-- Over any source that brings the bytes reading comes to their front and to nothing else. -/
theorem read_iff_front {σ : Type} [Source σ] {source : σ} (hsource : Brings source s none) :
    (∃ source', readLength source = (.ok r, source') ∧ Brings source' rest none) ↔
      Front s r rest := by
  have hread : ∀ {r : LengthRead} {rest : Bytes}, Front s r rest →
      ∃ source', readLength source = (.ok r, source') ∧ Brings source' rest none := by
    intro r rest hfront
    have hsame := agrees_matches.readLengthWithin Varint.maxLength 0 0 (matches_bytes hsource)
    change SameResult _ (readLength source) (readLength (⟨s⟩ : ByteSource)) at hsame
    rw [hfront.readLength_bytes] at hsame
    generalize readLength source = x at hsame
    cases hsame with
    | @ok source' _ _ hafter =>
      obtain ⟨b, ending, hb, hrest⟩ := hafter
      obtain ⟨rfl, rfl⟩ := hrest.unique (ByteSource.brings rest)
      exact ⟨source', rfl, hb⟩
  refine ⟨?_, hread⟩
  rintro ⟨source', hr, hrest⟩
  obtain ⟨r₀, rest₀, hfront⟩ := exists_front s
  obtain ⟨source₀, hr₀, hrest₀⟩ := hread hfront
  rw [hr] at hr₀
  cases hr₀
  obtain ⟨rfl, -⟩ := hrest.unique hrest₀
  exact hfront

/-- A result is that of a front. -/
theorem result_iff_front {σ : Type} [Source σ] {source : σ} (hsource : Brings source s none) :
    (∃ source', readLength source = (.ok r, source')) ↔ ∃ rest, Front s r rest := by
  constructor
  · rintro ⟨source', hr⟩
    obtain ⟨r₀, rest₀, hfront⟩ := exists_front s
    obtain ⟨source₀, hr₀, -⟩ := (read_iff_front hsource).mpr hfront
    rw [hr] at hr₀
    cases hr₀
    exact ⟨rest₀, hfront⟩
  · rintro ⟨rest, hfront⟩
    obtain ⟨source', hr, -⟩ := (read_iff_front hsource).mpr hfront
    exact ⟨source', hr⟩

theorem front_value_iff {n : Nat} : Front s (.value n) rest ↔ ∃ p, Spells p n ∧ s = p ++ rest := by
  constructor
  · intro h
    cases h with
    | value hform => exact ⟨_, hform.spells, rfl⟩
  · rintro ⟨p, hspells, rfl⟩
    exact .value hspells.form

theorem front_cleanEnd_iff : (∃ rest, Front s .cleanEnd rest) ↔ s = [] := by
  constructor
  · rintro ⟨rest, h⟩
    cases h
    rfl
  · rintro rfl
    exact ⟨[], .cleanEnd⟩

theorem front_cut_iff {k : Nat} :
    (∃ rest, Front s (.cut k) rest) ↔ 1 ≤ k ∧ k < 10 ∧ s.length = k ∧ ∀ b ∈ s, 128 ≤ b := by
  constructor
  · rintro ⟨rest, h⟩
    cases h with
    | cut hmore hpos hlen => exact ⟨hpos, hlen, rfl, hmore⟩
  · rintro ⟨hpos, hlen, rfl, hmore⟩
    exact ⟨[], .cut hmore hpos hlen⟩

theorem front_overflow_iff :
    (∃ rest, Front s .overflow rest) ↔ ∃ (more : Bytes) (last : UInt8) (rest : Bytes),
      s = more ++ last :: rest ∧ more.length = 9 ∧ (∀ b ∈ more, 128 ≤ b) ∧ 1 < last := by
  constructor
  · rintro ⟨rest, h⟩
    cases h with
    | overflow hmore hlen hlast => exact ⟨_, _, rest, rfl, Nat.succ.inj hlen, hmore, hlast⟩
  · rintro ⟨more, last, rest, rfl, hlen, hmore, hlast⟩
    exact ⟨rest, .overflow hmore (congrArg Nat.succ hlen) hlast⟩

end LengthRead

/-! ## The rounds -/

section Rounds

variable {σ : Type} [Source σ]

/-- The rounds of reading a number, with a result of its own for the case that they run through. -/
def readLengthOr (through : LengthRead) : Nat → Nat → Nat → σ → Except Failure LengthRead × σ
  | 0, _, _, s => (.ok through, s)
  | left + 1, i, v, s =>
    let one := Source.gather s 1
    match one.failure, one.got with
    | some e, _ => (.error e, one.source)
    | none, [] => (.ok (if i = 0 then .cleanEnd else .cut i), one.source)
    | none, b :: _ =>
      if left = 0 && 1 < b then (.ok .overflow, one.source)
      else
        let v := v + (b.toNat % 128) <<< (7 * i)
        if b < 128 then (.ok (.value v), one.source)
        else readLengthOr through left (i + 1) v one.source

/-- The last round always has a result, since a byte that is at most one asks for no other. -/
theorem readLengthOr_eq (through : LengthRead) :
    ∀ (left i v : Nat) (s : σ),
      readLengthOr through (left + 1) i v s = readLengthWithin (left + 1) i v s := by
  intro left
  induction left with
  | zero =>
    intro i v s
    unfold readLengthOr readLengthWithin
    generalize Source.gather s 1 = one
    obtain ⟨got, failure, s'⟩ := one
    cases failure with
    | some e => rfl
    | none =>
      cases got with
      | nil => rfl
      | cons b more =>
        by_cases hb : 1 < b
        · simp only [hb, decide_true, Bool.and_self, if_true]
        · have h128 : b < 128 := UInt8.lt_of_le_of_lt (UInt8.not_lt.mp hb) (by decide)
          simp only [h128, if_true]
  | succ left ih =>
    intro i v s
    unfold readLengthOr readLengthWithin
    generalize Source.gather s 1 = one
    obtain ⟨got, failure, s'⟩ := one
    cases failure with
    | some e => rfl
    | none =>
      cases got with
      | nil => rfl
      | cons b more => simp only [ih]

end Rounds

/-! ## The main statement -/

/-- **Numbers are read exactly.** A source that brings the bytes `s`, however they arrive, gives the
number `n` and leaves `rest` just if `s` is a form of `n` followed by `rest`, and so does decoding
in memory. Otherwise `s` is empty, or it ends behind one to nine bytes that ask for another, or it
begins with nine such bytes and a tenth that is too large; there is always one of the four results.
The number of a form is below 2⁶⁴, and a word of 64 bits into which its groups are put holds it.
What is written of a number of 64 bits reads back and leaves what follows it. On no source do the
ten rounds run through, so that it does not matter what they would come to then. -/
theorem length_reading_exact :
    (∀ {σ : Type} [Source σ] (source : σ) (s : Bytes), Brings source s none →
      (∀ (n : Nat) (rest : Bytes),
        ((∃ source', readLength source = (.ok (.value n), source') ∧ Brings source' rest none) ↔
          ∃ p, Varint.Spells p n ∧ s = p ++ rest) ∧
        (Varint.decode s = some (n, rest) ↔ ∃ p, Varint.Spells p n ∧ s = p ++ rest)) ∧
      ((∃ source', readLength source = (.ok .cleanEnd, source')) ↔ s = []) ∧
      (∀ k, (∃ source', readLength source = (.ok (.cut k), source')) ↔
        1 ≤ k ∧ k < 10 ∧ s.length = k ∧ ∀ b ∈ s, 128 ≤ b) ∧
      ((∃ source', readLength source = (.ok .overflow, source')) ↔
        ∃ (more : Bytes) (last : UInt8) (rest : Bytes), s = more ++ last :: rest ∧
          more.length = 9 ∧ (∀ b ∈ more, 128 ≤ b) ∧ 1 < last) ∧
      ∃ r source', readLength source = (.ok r, source')) ∧
    (∀ (p : Bytes) (n : Nat), Varint.Spells p n → n < 2 ^ 64 ∧ (Varint.word p).toNat = n) ∧
    (∀ {σ : Type} [Source σ] (source : σ) (v : UInt64) (rest : Bytes),
      Brings source (Varint.encode v.toNat ++ rest) none →
      ∃ source', readLength source = (.ok (.value v.toNat), source') ∧
        Brings source' rest none) ∧
    (∀ {σ : Type} [Source σ] (source : σ) (through : LengthRead),
      readLengthOr through 10 0 0 source = readLength source) := by
  refine ⟨?_, ?_, ?_, ?_⟩
  · intro σ _ source s hsource
    refine ⟨?_, ?_, ?_, ?_, ?_⟩
    · intro n rest
      refine ⟨(LengthRead.read_iff_front hsource).trans LengthRead.front_value_iff, ?_⟩
      rw [decode_eq_some_iff]
      simp only [form_iff_spells]
    · exact (LengthRead.result_iff_front hsource).trans LengthRead.front_cleanEnd_iff
    · intro k
      exact (LengthRead.result_iff_front hsource).trans LengthRead.front_cut_iff
    · exact (LengthRead.result_iff_front hsource).trans LengthRead.front_overflow_iff
    · obtain ⟨r, rest, hfront⟩ := LengthRead.exists_front s
      exact ⟨r, (LengthRead.result_iff_front hsource).mpr ⟨rest, hfront⟩⟩
  · intro p n hspells
    exact ⟨hspells.form.lt, hspells.form.toNat_word⟩
  · intro σ _ source v rest hsource
    exact (LengthRead.read_iff_front hsource).mpr (.value (form_encode v.toNat_lt))
  · intro σ _ source through
    exact readLengthOr_eq through 9 0 0 source

/-- The largest number is read from its ten bytes, which arrive one by one, and a byte is left
behind it. With one bit more in the tenth byte there are too many bits. -/
theorem length_reading_exact_of_largest :
    let source : ScriptedSource :=
      { data := #[255, 255, 255, 255, 255, 255, 255, 255, 255, 1, 7], chunk := some 1,
        interrupts := true }
    let excess : ScriptedSource :=
      { data := #[255, 255, 255, 255, 255, 255, 255, 255, 255, 3, 7] }
    (∃ source' : ScriptedSource,
      readLength source = (.ok (.value 18446744073709551615), source') ∧
      Brings source' [7] none) ∧
    ∃ excess' : ScriptedSource, readLength excess = (.ok .overflow, excess') := by
  intro source excess
  have hsource : ScriptedSource.Faultless (List.replicate 9 0xFF ++ [1] ++ [7]) source :=
    ⟨rfl, Nat.zero_le _, by simp [source], rfl, rfl, rfl⟩
  have hexcess : ScriptedSource.Faultless (List.replicate 9 0xFF ++ 3 :: [7]) excess :=
    ⟨rfl, Nat.zero_le _, by simp [excess], rfl, rfl, rfl⟩
  obtain ⟨hread, -, -, -⟩ := length_reading_exact
  constructor
  · have hspells : Varint.Spells (List.replicate 9 0xFF ++ [1]) 18446744073709551615 :=
      ⟨by decide, by decide, by decide, by decide, by decide⟩
    exact ((hread source _ hsource.brings).1 _ _).1.mpr ⟨_, hspells, rfl⟩
  · have hmore : ∀ b ∈ List.replicate 9 (0xFF : UInt8), 128 ≤ b := by
      intro b hb
      rw [List.eq_of_mem_replicate hb]
      decide
    exact (hread excess _ hexcess.brings).2.2.2.1.mpr ⟨_, _, _, rfl, rfl, hmore, by decide⟩

end ChatBackup
