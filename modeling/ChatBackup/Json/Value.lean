/-!
# JSON values

The values that a JSON text stands for, as far as settings need them: of numbers only the
natural ones written without fraction and exponent count, and a string that holds half of a
surrogate pair has no text. `compact` writes a value without any blanks.
-/

namespace ChatBackup

/-- A JSON value. -/
inductive JsonValue where
  | null
  | bool (value : Bool)
  /-- A number written with digits only. -/
  | natural (value : Nat)
  /-- Any other number. -/
  | number
  /-- A string, or nothing if it holds half of a surrogate pair. -/
  | string (text : Option String)
  | array (items : List JsonValue)
  /-- An object with its members in the order of the text, repeated ones included. -/
  | object (members : List (Option String × JsonValue))

namespace JsonValue

/-- The digit for a number below sixteen. -/
def hexDigit (n : Nat) : Char := if n < 10 then Char.ofNat (48 + n) else Char.ofNat (87 + n)

/-- A character inside quotes: quotes, backslashes and control characters are told apart from
those that stand for themselves. -/
def quotedChar (c : Char) : List Char :=
  if c = '"' then ['\\', '"']
  else if c = '\\' then ['\\', '\\']
  else if c = '\n' then ['\\', 'n']
  else if c = '\r' then ['\\', 'r']
  else if c = '\t' then ['\\', 't']
  else if c.toNat = 8 then ['\\', 'b']
  else if c.toNat = 12 then ['\\', 'f']
  else if c.toNat < 32 then
    ['\\', 'u', '0', '0', hexDigit (c.toNat / 16), hexDigit (c.toNat % 16)]
  else [c]

/-- A text inside quotes. -/
def quoted (text : String) : String :=
  String.ofList ('"' :: text.toList.flatMap quotedChar ++ ['"'])

/-- A string if it has a text. -/
def quotedOrNull : Option String → String
  | some text => quoted text
  | none => "null"

mutual

/-- Writes a value without blanks. What has no written form is left out as `null`. -/
def compact : JsonValue → String
  | null => "null"
  | bool b => if b then "true" else "false"
  | natural n => toString n
  | number => "null"
  | string text => quotedOrNull text
  | array items => "[" ++ String.intercalate "," (compactItems items) ++ "]"
  | object members => "\x7b" ++ String.intercalate "," (compactMembers members) ++ "\x7d"

/-- Writes the items of an array. -/
def compactItems : List JsonValue → List String
  | [] => []
  | v :: items => compact v :: compactItems items

/-- Writes the members of an object. -/
def compactMembers : List (Option String × JsonValue) → List String
  | [] => []
  | (key, v) :: members => (quotedOrNull key ++ ":" ++ compact v) :: compactMembers members

end

end JsonValue
end ChatBackup
