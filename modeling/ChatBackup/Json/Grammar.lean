import ChatBackup.Json.Value

/-!
# Reading JSON texts

`JsonValue.ofText?` reads a text that is one JSON value with nothing but blanks around it. Each
reader takes its part off the front of the characters and gives the rest, or nothing if they do not
begin with such a part.
-/

namespace ChatBackup.JsonValue

/-- The characters that may stand between parts. -/
def isBlank (c : Char) : Bool := c == ' ' || c == '\n' || c == '\r' || c == '\t'

/-- Skips blanks. -/
def skipBlanks (cs : List Char) : List Char := cs.dropWhile isBlank

/-- Takes the letters of a word. -/
def readWord : List Char → List Char → Option (List Char)
  | [], cs => some cs
  | w :: ws, c :: cs => if w = c then readWord ws cs else none
  | _ :: _, [] => none

/-! ## Numbers -/

/-- Takes one digit at least. -/
def readDigits (cs : List Char) : Option (List Char × List Char) :=
  let digits := cs.takeWhile Char.isDigit
  if digits.isEmpty then none else some (digits, cs.dropWhile Char.isDigit)

/-- Takes the whole part of a number, which has no leading zero. -/
def readWhole : List Char → Option (List Char × List Char)
  | '0' :: cs => some (['0'], cs)
  | cs => readDigits cs

/-- Takes a fraction if there is one, and tells whether. -/
def readFraction : List Char → Option (Bool × List Char)
  | '.' :: cs => (readDigits cs).map fun (_, cs) => (true, cs)
  | cs => some (false, cs)

/-- Takes an exponent if there is one, and tells whether. -/
def readExponent : List Char → Option (Bool × List Char)
  | c :: cs =>
    if c = 'e' || c = 'E' then
      let digits := match cs with
        | s :: rest => if s = '+' || s = '-' then rest else cs
        | [] => []
      (readDigits digits).map fun (_, cs) => (true, cs)
    else some (false, c :: cs)
  | [] => some (false, [])

/-- The number that digits stand for. -/
def natOfDigits (digits : List Char) : Nat :=
  digits.foldl (fun n c => 10 * n + (c.toNat - 48)) 0

/-- Takes a number. -/
def readNumber (cs : List Char) : Option (JsonValue × List Char) := do
  let (isNegative, cs) := match cs with
    | '-' :: cs => (true, cs)
    | cs => (false, cs)
  let (digits, cs) ← readWhole cs
  let (hasFraction, cs) ← readFraction cs
  let (hasExponent, cs) ← readExponent cs
  if isNegative || hasFraction || hasExponent then some (.number, cs)
  else some (.natural (natOfDigits digits), cs)

/-! ## Strings -/

/-- The value of a hexadecimal digit. -/
def hexValue? (c : Char) : Option Nat :=
  if '0' ≤ c && c ≤ '9' then some (c.toNat - 48)
  else if 'a' ≤ c && c ≤ 'f' then some (c.toNat - 87)
  else if 'A' ≤ c && c ≤ 'F' then some (c.toNat - 55)
  else none

/-- Takes four hexadecimal digits. -/
def readUnit : List Char → Option (Nat × List Char)
  | a :: b :: c :: d :: cs => do
    let n := (((← hexValue? a) * 16 + (← hexValue? b)) * 16 + (← hexValue? c)) * 16
      + (← hexValue? d)
    some (n, cs)
  | _ => none

/-- Takes what follows a backslash. -/
def readEscape : List Char → Option (Nat × List Char)
  | '"' :: cs => some (34, cs)
  | '\\' :: cs => some (92, cs)
  | '/' :: cs => some (47, cs)
  | 'b' :: cs => some (8, cs)
  | 'f' :: cs => some (12, cs)
  | 'n' :: cs => some (10, cs)
  | 'r' :: cs => some (13, cs)
  | 't' :: cs => some (9, cs)
  | 'u' :: cs => readUnit cs
  | _ => none

/-- Takes the characters of a string and the quote after them, as code points in which surrogates
still stand apart. Each round takes a character, so `fuel > cs.length` always suffices. -/
def readPoints : Nat → List Char → List Nat → Option (List Nat × List Char)
  | 0, _, _ => none
  | fuel + 1, cs, points =>
    match cs with
    | '"' :: cs => some (points.reverse, cs)
    | '\\' :: cs =>
      match readEscape cs with
      | some (p, cs) => readPoints fuel cs (p :: points)
      | none => none
    | c :: cs => if c.toNat < 32 then none else readPoints fuel cs (c.toNat :: points)
    | [] => none

/-- Whether a code point is the first half of a surrogate pair. -/
def isHigh (p : Nat) : Bool := 0xd800 ≤ p && p < 0xdc00

/-- Whether a code point is the second half of a surrogate pair. -/
def isLow (p : Nat) : Bool := 0xdc00 ≤ p && p < 0xe000

/-- Joins surrogate pairs; nothing if half of one stands alone. -/
def joinPairs : List Nat → Option (List Char)
  | p :: q :: rest =>
    if isHigh p && isLow q then
      (joinPairs rest).map (Char.ofNat (0x10000 + (p - 0xd800) * 0x400 + (q - 0xdc00)) :: ·)
    else if isHigh p || isLow p then none
    else (joinPairs (q :: rest)).map (Char.ofNat p :: ·)
  | [p] => if isHigh p || isLow p then none else some [Char.ofNat p]
  | [] => some []

/-- Takes a string after its opening quote. -/
def readString (cs : List Char) : Option (Option String × List Char) :=
  (readPoints (cs.length + 1) cs []).map fun (points, cs) =>
    ((joinPairs points).map String.ofList, cs)

/-! ## Values -/

/-- Takes a key, the colon after it and the blanks around that. -/
def readKey : List Char → Option (Option String × List Char)
  | '"' :: cs =>
    match readString cs with
    | none => none
    | some (key, cs) =>
      match skipBlanks cs with
      | ':' :: cs => some (key, skipBlanks cs)
      | _ => none
  | _ => none

mutual

/-- Takes a value. Two levels of the recursion take a character at least, so
`fuel > 2 * cs.length` always suffices. -/
def readValue : Nat → List Char → Option (JsonValue × List Char)
  | 0, _ => none
  | fuel + 1, cs =>
    match cs with
    | 'n' :: cs => (readWord ['u', 'l', 'l'] cs).map (.null, ·)
    | 't' :: cs => (readWord ['r', 'u', 'e'] cs).map (.bool true, ·)
    | 'f' :: cs => (readWord ['a', 'l', 's', 'e'] cs).map (.bool false, ·)
    | '"' :: cs => (readString cs).map fun (text, cs) => (.string text, cs)
    | '[' :: cs =>
      match skipBlanks cs with
      | ']' :: cs => some (.array [], cs)
      | cs => (readItems fuel cs []).map fun (items, cs) => (.array items, cs)
    | '\x7b' :: cs =>
      match skipBlanks cs with
      | '\x7d' :: cs => some (.object [], cs)
      | cs => (readMembers fuel cs []).map fun (members, cs) => (.object members, cs)
    | cs => readNumber cs

/-- Takes the items of an array and the bracket after them. -/
def readItems : Nat → List Char → List JsonValue → Option (List JsonValue × List Char)
  | 0, _, _ => none
  | fuel + 1, cs, items =>
    match readValue fuel cs with
    | none => none
    | some (v, cs) =>
      match skipBlanks cs with
      | ',' :: cs => readItems fuel (skipBlanks cs) (v :: items)
      | ']' :: cs => some ((v :: items).reverse, cs)
      | _ => none

/-- Takes the members of an object and the brace after them. -/
def readMembers : Nat → List Char → List (Option String × JsonValue) →
    Option (List (Option String × JsonValue) × List Char)
  | 0, _, _ => none
  | fuel + 1, cs, members =>
    match readKey cs with
    | none => none
    | some (key, cs) =>
      match readValue fuel cs with
      | none => none
      | some (v, cs) =>
        match skipBlanks cs with
        | ',' :: cs => readMembers fuel (skipBlanks cs) ((key, v) :: members)
        | '\x7d' :: cs => some (((key, v) :: members).reverse, cs)
        | _ => none
end

/-- The value that a whole text stands for. -/
def ofText? (text : String) : Option JsonValue :=
  let cs := skipBlanks text.toList
  match readValue (2 * cs.length + 2) cs with
  | some (v, rest) => if (skipBlanks rest).isEmpty then some v else none
  | none => none

end ChatBackup.JsonValue
