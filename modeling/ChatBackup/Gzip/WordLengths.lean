import ChatBackup.Gzip.PrefixCode

/-!
# Choosing word lengths

The lengths of words that tell a text with the given symbol counts in few bits: the two rarest
groups of symbols are joined, which makes the words of both one bit longer, until a single group is
left. If a word becomes too long the differences between the counts are made smaller and the choice
starts again.
-/

namespace ChatBackup.WordLengths

/-- Symbols that count as one: how often they occur together, and each symbol with the length that
its word has below the group. -/
structure Group where
  count : Nat
  words : List (Nat × Nat)

/-- Puts a group into its place in a row with rising counts. -/
def insert (g : Group) : List Group → List Group
  | [] => [g]
  | h :: rest => if g.count ≤ h.count then g :: h :: rest else h :: insert g rest

/-- Makes all words one bit longer. -/
def lengthen (words : List (Nat × Nat)) : List (Nat × Nat) := words.map fun w => (w.1, w.2 + 1)

/-- Two groups as one. -/
def Group.join (a b : Group) : Group := ⟨a.count + b.count, lengthen (a.words ++ b.words)⟩

/-- Joins groups in a row with rising counts until one is left, and tells the words. Each round
leaves one group less, so `fuel ≥ groups.length` always suffices. -/
def joinAll : Nat → List Group → List (Nat × Nat)
  | fuel + 1, a :: b :: rest => joinAll fuel (insert (a.join b) rest)
  | _, groups => groups.flatMap (·.words)

/-- The groups of one symbol each, for the symbols that occur. -/
def singles (counts : List Nat) : List Group :=
  (counts.zipIdx.filter (·.1 ≠ 0)).map fun c => ⟨c.1, [(c.2, 0)]⟩

/-- The words for given counts without a limit. A symbol that occurs alone has a word of one
bit. -/
def unlimited (counts : List Nat) : List (Nat × Nat) :=
  match singles counts with
  | [g] => lengthen g.words
  | groups => joinAll groups.length (groups.foldr insert [])

/-- The lengths of words, symbol by symbol for so many symbols; zero stands for a symbol without a
word. -/
def bySymbol (size : Nat) (words : List (Nat × Nat)) : List Nat :=
  (List.range size).map fun s => (words.lookup s).getD 0

/-- The lengths for given counts, none above the limit. As many tries as a count has bits make all
counts one, and the words as short as they can all be. -/
def limited (limit : Nat) : Nat → List Nat → Option (List Nat)
  | 0, _ => none
  | tries + 1, counts =>
    let lengths := bySymbol counts.length (unlimited counts)
    if lengths.all (· ≤ limit) then some lengths
    else limited limit tries (counts.map fun c => (c + 1) / 2)

/-- The lengths for given counts, none above the limit, if there are some. -/
def ofCounts (limit : Nat) (counts : List Nat) : Option (List Nat) := limited limit 64 counts

end ChatBackup.WordLengths
