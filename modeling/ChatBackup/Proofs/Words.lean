import ChatBackup.Gzip.Deflate
import Mathlib.Algebra.GroupWithZero.Nat

/-!
# Reading back words and numbers

What is written as bits is read back. `BitReader.Reads p bits a` says that a reader takes exactly
these bits off the front of any string and tells `a`; readers put together read what was written one
after another (`Reads.bind`). Numbers of a given width are read back (`reads_number`), and so are
the words of a prefix code:

> `PrefixCode.reads_word`: under a code that was made of word lengths which leave room for each
> other, the word of every symbol that has one is read as the symbol.

The words of a tree are the ways to its leaves (`CodeTree.Leads`), so that no word opens another one
from the start. What has to be seen is that no leaf is lost when the layers of a code are put under
two branches (`length_layer_le`).
-/

namespace ChatBackup

namespace Bits

theorem ofByte_eq (x : UInt8) : ofByte x = ofNat 8 x.toNat := by
  have h : ∀ i : Fin 256, ofByte (UInt8.ofFin i) = ofNat 8 (UInt8.ofFin i).toNat := by
    decide +kernel
  have hx := h x.toFin
  rw [UInt8.ofFin_toFin] at hx
  exact hx

/-- Only the bits that are written matter. -/
theorem ofNat_mod (width n : Nat) : ofNat width (n % 1 <<< width) = ofNat width n := by
  induction width generalizing n with
  | zero => rfl
  | succ width ih =>
    rw [ofNat, ofNat, ← ih (n / 2), Nat.one_shiftLeft, Nat.one_shiftLeft, Nat.pow_succ]
    have h₁ : n % (2 ^ width * 2) % 2 = n % 2 := Nat.mod_mul_left_mod n (2 ^ width) 2
    have h₂ : n % (2 ^ width * 2) / 2 = n / 2 % 2 ^ width := by
      rw [Nat.mul_comm, Nat.mod_mul_right_div_self]
    rw [h₁, h₂]

theorem ofNat_add (a b n : Nat) : ofNat (a + b) n = ofNat a n ++ ofNat b (n >>> a) := by
  induction a generalizing n with
  | zero => rw [Nat.zero_add, Nat.shiftRight_zero]; rfl
  | succ a ih =>
    rw [Nat.add_right_comm, ofNat, ofNat, ih, List.cons_append, Nat.shiftRight_succ_inside]

/-- The bytes of a number hold its bits. -/
theorem ofBytes_littleEndian (k n : Nat) :
    ofBytes (Bytes.littleEndian k n) = ofNat (8 * k) n := by
  induction k generalizing n with
  | zero => rfl
  | succ k ih =>
    have hlow : (UInt8.ofNat n).toNat = n % 1 <<< 8 := by simp
    have hhigh : n / 256 = n >>> 8 := (Nat.shiftRight_eq_div_pow n 8).symm
    rw [Bytes.littleEndian, ofBytes_cons, ih, ofByte_eq, Nat.mul_succ, Nat.add_comm, ofNat_add 8,
      hlow, ofNat_mod, hhigh]

end Bits

/-! ## Readers of what was written -/

namespace BitReader

variable {α β : Type} {p : BitReader α} {f : α → BitReader β} {bits rest x y : Bits} {a : α} {b : β}

/-- After an item was read the reader that it calls for goes on. -/
theorem run_andThen (h : p.run bits = .done a rest) :
    (p.andThen f).run bits = (f a).run rest := by
  unfold andThen
  simp only [h]

theorem run_bind (h : p.run bits = .done a rest) : (p >>= f).run bits = (f a).run rest :=
  run_andThen h

/-- A reader takes these bits off the front of any string and tells the item. -/
def Reads (p : BitReader α) (x : Bits) (a : α) : Prop :=
  ∀ rest, p.run (x ++ rest) = .done a rest

theorem reads_give (a : α) : (give a).Reads [] a := fun _ => rfl

theorem Reads.andThen (hp : p.Reads x a) (hf : (f a).Reads y b) :
    (p.andThen f).Reads (x ++ y) b := by
  intro rest
  rw [List.append_assoc, run_andThen (hp _)]
  exact hf rest

theorem Reads.bind (hp : p.Reads x a) (hf : (f a).Reads y b) : (p >>= f).Reads (x ++ y) b :=
  hp.andThen hf

/-- What is left to do may need no more bits. -/
theorem Reads.last (hp : p.Reads x a) (hf : (f a).Reads [] b) : (p >>= f).Reads x b := by
  have h := hp.bind hf
  rw [List.append_nil] at h
  exact h

theorem reads_ensure {condition : Bool} (h : condition = true) :
    (ensure condition).Reads [] () := by
  rw [h]
  exact reads_give ()

theorem reads_bit (b : Bool) : bit.Reads [b] b := fun _ => rfl

/-- Numbers are read as they are written. -/
theorem run_number (width n : Nat) (rest : Bits) :
    (number width).run (Bits.ofNat width n ++ rest) = .done (n % 1 <<< width) rest := by
  induction width generalizing n with
  | zero => rw [Nat.shiftLeft_zero, Nat.mod_one]; rfl
  | succ width ih =>
    have hbit : bit.run (Bits.ofNat (width + 1) n ++ rest) =
        .done (n % 2 == 1) (Bits.ofNat width (n / 2) ++ rest) := rfl
    rw [number, run_andThen hbit, run_andThen (ih (n / 2))]
    show Reading.done _ rest = _
    rw [Nat.one_shiftLeft, Nat.one_shiftLeft, Nat.pow_succ, Nat.mul_comm (2 ^ width), Nat.mod_mul]
    congr 2
    rcases Nat.mod_two_eq_zero_or_one n with h | h <;> rw [h] <;> rfl

theorem reads_number {width n : Nat} (h : n < 2 ^ width) :
    (number width).Reads (Bits.ofNat width n) n := by
  intro rest
  rw [run_number, Nat.one_shiftLeft, Nat.mod_eq_of_lt h]

theorem reads_times {items : List α} {write : α → Bits} (h : ∀ a ∈ items, p.Reads (write a) a) :
    (times p items.length).Reads (items.flatMap write) items := by
  induction items with
  | nil => exact reads_give []
  | cons a items ih =>
    have hmore := ih fun b hb => h b (List.mem_cons_of_mem a hb)
    exact (h a List.mem_cons_self).andThen (hmore.last (reads_give (a :: items)))

theorem run_byte (x : UInt8) (rest : Bits) :
    byte.run (Bits.ofByte x ++ rest) = .done x rest := by
  have h := Bits.toBytes_ofByte_append x []
  rw [List.append_nil] at h
  have hx := (List.cons.inj h).1
  show Reading.done _ rest = _
  rw [hx]

/-- Bits after a whole number of bytes are skipped. -/
theorem run_align {skipped rest : Bits} (hs : skipped.length < 8) (hr : rest.length % 8 = 0) :
    align.run (skipped ++ rest) = .done () rest := by
  show Reading.done () ((skipped ++ rest).drop ((skipped ++ rest).length % 8)) = _
  rw [List.length_append, ← Nat.add_mod_mod, hr, Nat.add_zero, Nat.mod_eq_of_lt hs,
    List.drop_left]

end BitReader

/-! ## The words of a tree -/

namespace CodeTree

/-- Bits lead through a tree to the leaf of a symbol. -/
inductive Leads : CodeTree → Bits → Nat → Prop where
  | leaf (s : Nat) : Leads (.leaf s) [] s
  | zero {zero one : CodeTree} {w : Bits} {s : Nat} : Leads zero w s →
    Leads (.node zero one) (false :: w) s
  | one {zero one : CodeTree} {w : Bits} {s : Nat} : Leads one w s →
    Leads (.node zero one) (true :: w) s

theorem Leads.reads {t : CodeTree} {w : Bits} {s : Nat} (h : Leads t w s) : t.reader.Reads w s := by
  intro rest
  induction h with
  | leaf => rfl
  | zero _ ih => exact ih
  | one _ ih => exact ih

/-- The words of a tree are the ways to its leaves. -/
theorem mem_words {t : CodeTree} {beginning w : Bits} {s : Nat} :
    (s, w) ∈ t.words beginning ↔ ∃ v, Leads t v s ∧ w = beginning.reverse ++ v := by
  induction t generalizing beginning with
  | missing =>
    simp only [words, List.not_mem_nil, false_iff]
    rintro ⟨v, h, -⟩
    cases h
  | leaf symbol =>
    rw [words, List.mem_singleton]
    constructor
    · intro h
      cases h
      exact ⟨[], .leaf _, (List.append_nil _).symm⟩
    · rintro ⟨v, h, rfl⟩
      cases h
      rw [List.append_nil]
  | node zero one ihz iho =>
    have hbranch : ∀ (b : Bool) (v : Bits),
        (b :: beginning).reverse ++ v = beginning.reverse ++ b :: v := by
      intro b v
      rw [List.reverse_cons, List.append_assoc]
      rfl
    rw [words, List.mem_append, ihz, iho]
    constructor
    · rintro (⟨v, h, rfl⟩ | ⟨v, h, rfl⟩)
      · exact ⟨false :: v, .zero h, hbranch false v⟩
      · exact ⟨true :: v, .one h, hbranch true v⟩
    · rintro ⟨v, h, rfl⟩
      cases h with
      | zero h => exact Or.inl ⟨_, h, (hbranch false _).symm⟩
      | one h => exact Or.inr ⟨_, h, (hbranch true _).symm⟩

end CodeTree

/-! ## The layers of a code -/

namespace PrefixCode

open CodeTree

variable {lengths : List Nat} {s : Nat}

/-- Some of the trees has a word for the symbol. -/
def Tells (trees : List CodeTree) (s : Nat) : Prop := ∃ t ∈ trees, ∃ w, Leads t w s

/-- Under nodes all words stay. -/
theorem tells_pairUp : ∀ {trees : List CodeTree}, Tells trees s → Tells (pairUp trees) s
  | [], h => h
  | [a], ⟨t, ht, w, h⟩ => by
    rw [List.mem_singleton.mp ht] at h
    exact ⟨_, List.mem_singleton_self _, _, .zero h⟩
  | a :: b :: rest, ⟨t, ht, w, h⟩ => by
    rcases List.mem_cons.mp ht with rfl | ht
    · exact ⟨_, List.mem_cons_self, _, .zero h⟩
    · rcases List.mem_cons.mp ht with rfl | ht
      · exact ⟨_, List.mem_cons_self, _, .one h⟩
      · obtain ⟨t', ht', more⟩ := tells_pairUp (⟨t, ht, w, h⟩ : Tells rest s)
        exact ⟨t', List.mem_cons_of_mem _ ht', more⟩

theorem length_pairUp : ∀ trees : List CodeTree, 2 * (pairUp trees).length ≤ trees.length + 1
  | [] => Nat.zero_le _
  | [_] => Nat.le_refl _
  | a :: b :: rest => by
    have := length_pairUp rest
    simp only [pairUp, List.length_cons]
    omega

theorem tells_leaves {l : Nat} (h : lengths[s]? = some l) : Tells (leaves lengths l) s := by
  refine ⟨.leaf s, ?_, [], .leaf s⟩
  rw [leaves, List.mem_map]
  refine ⟨(l, s), ?_, rfl⟩
  rw [List.mem_filter]
  exact ⟨List.mk_mem_zipIdx_iff_getElem?.mpr h, by simp⟩

theorem length_leaves (lengths : List Nat) (l : Nat) :
    (leaves lengths l).length = lengths.count l := by
  rw [leaves, List.length_map, ← List.countP_eq_length_filter, List.count]
  have h := List.countP_map (p := (· == l)) (f := Prod.fst) (l := lengths.zipIdx)
  rw [List.zipIdx_map_fst] at h
  rw [h]
  rfl

/-- The layers above a word have the symbol. -/
theorem tells_layer {l k : Nat} (h : lengths[s]? = some l) (hk : maxLength - k ≤ l)
    (hl : l ≤ maxLength) : Tells (layer lengths k) s := by
  induction k with
  | zero =>
    obtain rfl : l = maxLength := by omega
    exact tells_leaves h
  | succ k ih =>
    rw [layer]
    by_cases hleaf : l = maxLength - (k + 1)
    · subst hleaf
      obtain ⟨t, ht, more⟩ := tells_leaves h
      exact ⟨t, List.mem_append_left _ ht, more⟩
    · obtain ⟨t, ht, more⟩ := tells_pairUp (ih (by omega))
      exact ⟨t, List.mem_append_right _ ht, more⟩

/-- The room for words of all but the last `k` bits at least, in words of the greatest length. -/
def spaceBelow (lengths : List Nat) (k : Nat) : Nat :=
  (lengths.map fun l => if maxLength - k ≤ l ∧ l ≤ maxLength then 2 ^ (maxLength - l) else 0).sum

theorem spaceBelow_zero (lengths : List Nat) : spaceBelow lengths 0 = lengths.count maxLength := by
  induction lengths with
  | nil => rfl
  | cons l lengths ih =>
    rw [spaceBelow, List.map_cons, List.sum_cons, ← spaceBelow, ih, List.count_cons]
    by_cases h : l = maxLength
    · simp [h, Nat.add_comm]
    · rw [if_neg (by omega), if_neg (by simpa using h), Nat.zero_add, Nat.add_zero]

theorem spaceBelow_succ (lengths : List Nat) {k : Nat} (hk : k < maxLength) :
    spaceBelow lengths (k + 1) =
      lengths.count (maxLength - (k + 1)) * 2 ^ (k + 1) + spaceBelow lengths k := by
  have hone : ∀ l, (if maxLength - (k + 1) ≤ l ∧ l ≤ maxLength then 2 ^ (maxLength - l) else 0) =
      (if l = maxLength - (k + 1) then 2 ^ (k + 1) else 0) +
        if maxLength - k ≤ l ∧ l ≤ maxLength then 2 ^ (maxLength - l) else 0 := by
    intro l
    by_cases h : l = maxLength - (k + 1)
    · have hback : maxLength - l = k + 1 := by omega
      rw [if_pos (by omega), if_pos h, if_neg (by omega), hback]
      rfl
    · have hiff : maxLength - (k + 1) ≤ l ∧ l ≤ maxLength ↔ maxLength - k ≤ l ∧ l ≤ maxLength := by
        omega
      rw [if_neg h, Nat.zero_add]
      simp only [hiff]
  induction lengths with
  | nil => simp [spaceBelow]
  | cons l lengths ih =>
    have hcount : (l :: lengths).count (maxLength - (k + 1)) * 2 ^ (k + 1) =
        lengths.count (maxLength - (k + 1)) * 2 ^ (k + 1) +
          if l = maxLength - (k + 1) then 2 ^ (k + 1) else 0 := by
      rw [List.count_cons, Nat.add_mul]
      by_cases h : l = maxLength - (k + 1) <;> simp [h]
    simp only [spaceBelow, List.map_cons, List.sum_cons] at ih ⊢
    rw [ih, hone, hcount]
    omega

theorem spaceBelow_le_space (lengths : List Nat) :
    spaceBelow lengths (maxLength - 1) ≤ space lengths := by
  induction lengths with
  | nil => exact Nat.le_refl _
  | cons l lengths ih =>
    rw [spaceBelow, List.map_cons, List.sum_cons, ← spaceBelow, space, List.foldr_cons, ← space]
    refine Nat.add_le_add ?_ ih
    split
    next h =>
      have hne : l ≠ 0 := by
        have : maxLength = 15 := rfl
        omega
      exact Nat.le_of_eq (by rw [if_neg hne, Nat.one_shiftLeft])
    next => exact Nat.zero_le _

/-- A layer has no more trees than there is room for, rounded up. -/
theorem length_layer_le (lengths : List Nat) {k : Nat} (hk : k < maxLength) :
    (layer lengths k).length * 2 ^ k < spaceBelow lengths k + 2 ^ k := by
  induction k with
  | zero =>
    rw [layer, length_leaves, spaceBelow_zero]
    omega
  | succ k ih =>
    -- pairing halves the layer below; one node may have a single tree, which is the rounding
    have hbelow := ih (by omega)
    have hpairs := Nat.mul_le_mul_right (2 ^ k) (length_pairUp (layer lengths k))
    rw [layer, List.length_append, length_leaves, spaceBelow_succ lengths (by omega), Nat.add_mul,
      Nat.pow_succ]
    rw [Nat.add_mul, Nat.one_mul] at hpairs
    have hcomm : (pairUp (layer lengths k)).length * (2 ^ k * 2) =
        2 * (pairUp (layer lengths k)).length * 2 ^ k := by
      rw [Nat.mul_comm (2 ^ k) 2, ← Nat.mul_assoc, Nat.mul_comm _ 2]
    rw [hcomm]
    omega

/-- Every symbol with a length has a word, if there is room for all. -/
theorem exists_word {l : Nat} (hroom : space lengths ≤ 2 ^ maxLength) (h : lengths[s]? = some l)
    (hpos : l ≠ 0) (hl : l ≤ maxLength) : ∃ w, (s, w) ∈ (ofLengths lengths).words := by
  have hlen := length_layer_le lengths (k := maxLength - 1) (by decide)
  have hspace := spaceBelow_le_space lengths
  have htwo : (layer lengths (maxLength - 1)).length ≤ 2 := by
    have h15 : maxLength = 15 := rfl
    rw [h15] at hlen hspace hroom ⊢
    omega
  obtain ⟨t, ht, w, hw⟩ := tells_layer h (k := maxLength - 1) (by omega) hl
  unfold words ofLengths
  -- there are no more than two trees, and both stay
  match hlayer : layer lengths (maxLength - 1), ht, htwo with
  | [zero], ht, _ =>
    rw [List.mem_singleton.mp ht] at hw
    exact ⟨_, mem_words.mpr ⟨_, .zero hw, rfl⟩⟩
  | [zero, one], ht, _ =>
    rcases List.mem_cons.mp ht with rfl | ht
    · exact ⟨_, mem_words.mpr ⟨_, .zero hw, rfl⟩⟩
    · rw [List.mem_singleton.mp ht] at hw
      exact ⟨_, mem_words.mpr ⟨_, .one hw, rfl⟩⟩

/-- A word is read as its symbol. -/
theorem reads_of_mem {c : PrefixCode} {w : Bits} (h : (s, w) ∈ c.words) : c.reader.Reads w s := by
  obtain ⟨v, hv, rfl⟩ := mem_words.mp h
  cases hv with
  | zero hv => exact (BitReader.reads_bit false).andThen hv.reads
  | one hv => exact (BitReader.reads_bit true).andThen hv.reads

end PrefixCode

/-! ## Tables of words -/

namespace Deflate

/-- What is put into a table under other symbols leaves a word alone. -/
theorem foldl_set_of_not_mem {words : List (Nat × Bits)} {s : Nat} (h : ∀ w, (s, w) ∉ words)
    (t : Array Bits) :
    (words.foldl (fun t (s, w) => t.setIfInBounds s w) t)[s]? = t[s]? := by
  induction words generalizing t with
  | nil => rfl
  | cons p words ih =>
    obtain ⟨s', w'⟩ := p
    have hne : s' ≠ s := by
      rintro rfl
      exact h w' List.mem_cons_self
    rw [List.foldl_cons, ih fun w hw => h w (List.mem_cons_of_mem _ hw)]
    exact Array.getElem?_setIfInBounds_ne hne

/-- A table has one of the words that were put into it for a symbol. -/
theorem foldl_set_of_mem {words : List (Nat × Bits)} {s : Nat} (h : ∃ w, (s, w) ∈ words)
    {t : Array Bits} (hs : s < t.size) :
    ∃ v, (s, v) ∈ words ∧ (words.foldl (fun t (s, w) => t.setIfInBounds s w) t)[s]? = some v := by
  induction words generalizing t with
  | nil => obtain ⟨w, hw⟩ := h; cases hw
  | cons p words ih =>
    obtain ⟨s', w'⟩ := p
    rw [List.foldl_cons]
    -- a later word for the symbol takes the place of this one
    by_cases hmore : ∃ w, (s, w) ∈ words
    · obtain ⟨w, hw, htable⟩ := ih hmore (t := t.setIfInBounds s' w') (by simpa using hs)
      exact ⟨w, List.mem_cons_of_mem _ hw, htable⟩
    · obtain ⟨w, hw⟩ := h
      rcases List.mem_cons.mp hw with heq | hw
      · obtain ⟨rfl, rfl⟩ := Prod.mk.inj heq
        refine ⟨w, List.mem_cons_self, ?_⟩
        rw [foldl_set_of_not_mem fun v hv => hmore ⟨v, hv⟩]
        exact Array.getElem?_setIfInBounds_self_of_lt hs
      · exact absurd ⟨w, hw⟩ hmore

end Deflate

/-- **Words are read back**: a code that was made of word lengths which leave room for each other
reads the word of every symbol that has one as this symbol. -/
theorem PrefixCode.reads_word {lengths : List Nat} {s l size : Nat}
    (hroom : space lengths ≤ 2 ^ maxLength) (h : lengths[s]? = some l) (hpos : l ≠ 0)
    (hl : l ≤ maxLength) (hs : s < size) :
    (ofLengths lengths).reader.Reads
      (Deflate.word (Deflate.wordTable (ofLengths lengths) size) s) s := by
  have hsize : s < (Array.replicate size ([] : Bits)).size := by
    rw [Array.size_replicate]
    exact hs
  obtain ⟨w, hw, htable⟩ := Deflate.foldl_set_of_mem (exists_word hroom h hpos hl) hsize
  rw [Deflate.word, Deflate.wordTable, htable]
  exact reads_of_mem hw

end ChatBackup
