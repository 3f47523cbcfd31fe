import ChatBackup.Gzip.BitReader

/-!
# Prefix codes

A prefix code gives symbols words of bits, none of which opens another. It is told by the length of
each symbol's word: shorter words come first, and words of one length follow the order of the
symbols. A code is kept as the tree that its words lead through, one branch per bit.
-/

namespace ChatBackup

/-- The tree below a beginning of words. -/
inductive CodeTree where
  /-- No word begins like this. -/
  | missing
  /-- This is the word of a symbol. -/
  | leaf (symbol : Nat)
  | node (zero one : CodeTree)
  deriving DecidableEq, Repr

namespace CodeTree

/-- Follows bits down to a symbol. -/
def walk : CodeTree → Bits → Reading Nat
  | leaf symbol, bits => .done symbol bits
  | missing, _ => .corrupt
  | node _ _, [] => .starved
  | node zero one, b :: rest => if b then one.walk rest else zero.walk rest

theorem length_walk_le : ∀ {t : CodeTree} {bits : Bits} {s : Nat} {rest : Bits},
    t.walk bits = .done s rest → rest.length ≤ bits.length
  | leaf _, _, _, _, h => by cases h; exact Nat.le_refl _
  | missing, _, _, _, h => by cases h
  | node _ _, [], _, _, h => by cases h
  | node zero one, b :: r, _, _, h => by
    simp only [walk] at h
    split at h
    · exact Nat.le_succ_of_le (length_walk_le h)
    · exact Nat.le_succ_of_le (length_walk_le h)

theorem walk_append : ∀ (t : CodeTree) (bits more : Bits), t.walk bits ≠ .starved →
    t.walk (bits ++ more) = (t.walk bits).append more
  | leaf _, _, _, _ => rfl
  | missing, _, _, _ => rfl
  | node _ _, [], _, h => absurd rfl h
  | node zero one, b :: r, more, h => by
    simp only [List.cons_append, walk] at h ⊢
    split at h
    next hb => simp only [hb, if_true]; exact walk_append one r more h
    next hb => simp only [hb]; exact walk_append zero r more h

/-- Reads the rest of a word. -/
def reader (t : CodeTree) : BitReader Nat where
  run := t.walk
  length_le := length_walk_le
  run_append bits more _ h := walk_append t bits more h

/-- The words below a tree, each in front of a given beginning that stands in reverse. -/
def words (beginning : Bits) : CodeTree → List (Nat × Bits)
  | missing => []
  | leaf symbol => [(symbol, beginning.reverse)]
  | node zero one => words (false :: beginning) zero ++ words (true :: beginning) one

end CodeTree

/-- A prefix code whose words have at least one bit. -/
structure PrefixCode where
  /-- The words that begin with a zero. -/
  zero : CodeTree
  /-- The words that begin with a one. -/
  one : CodeTree
  deriving DecidableEq, Repr

namespace PrefixCode

/-- Reads a word. -/
def reader (c : PrefixCode) : BitReader Nat :=
  BitReader.bit.andThen fun b => if b then c.one.reader else c.zero.reader

/-- Reading a word takes at least one bit. -/
theorem length_lt {c : PrefixCode} {bits : Bits} {s : Nat} {rest : Bits}
    (h : c.reader.run bits = .done s rest) : rest.length < bits.length :=
  BitReader.length_lt_of_bit h

/-- All words with their symbols. -/
def words (c : PrefixCode) : List (Nat × Bits) := CodeTree.words [] (.node c.zero c.one)

/-- The length of the longest word. -/
def maxLength : Nat := 15

/-- Joins neighbours under one node each. -/
def pairUp : List CodeTree → List CodeTree
  | a :: b :: rest => .node a b :: pairUp rest
  | [a] => [.node a .missing]
  | [] => []

/-- The symbols whose words have a given length. -/
def leaves (lengths : List Nat) (length : Nat) : List CodeTree :=
  (lengths.zipIdx.filter (·.1 = length)).map fun (_, symbol) => .leaf symbol

/-- The trees that words lead to after all but the last `k` bits of the longest ones: first the
words that end there, then what longer words go on to. -/
def layer (lengths : List Nat) : Nat → List CodeTree
  | 0 => leaves lengths maxLength
  | k + 1 => leaves lengths (maxLength - (k + 1)) ++ pairUp (layer lengths k)

/-- The code with the word lengths given, symbol by symbol; zero stands for a symbol without a
word. -/
def ofLengths (lengths : List Nat) : PrefixCode :=
  match layer lengths (maxLength - 1) with
  | zero :: one :: _ => ⟨zero, one⟩
  | [zero] => ⟨zero, .missing⟩
  | [] => ⟨.missing, .missing⟩

/-- How many symbols have a word. -/
def used (lengths : List Nat) : Nat := lengths.countP (· != 0)

/-- How much room the words take, in words of the greatest length. -/
def space (lengths : List Nat) : Nat :=
  lengths.foldr (fun l room => (if l = 0 then 0 else 1 <<< (maxLength - l)) + room) 0

/-- Whether the words leave no room for another one. -/
def isComplete (lengths : List Nat) : Bool := space lengths == 1 <<< maxLength

end PrefixCode
end ChatBackup
