/-!
# Values to be written as JSON

Reports are written with two spaces of indentation for each level, a member or item on each line, and
empty objects and arrays on one line.
-/
namespace Repin.Json

-- A JSON value to be written. The members of an object keep their order.
inductive Value where
  | null
  | bool (b : Bool)
  | number (n : Nat)
  | string (s : String)
  | array (items : List Value)
  | object (members : List (String × Value))

namespace Value

-- An array of strings.
def strings (items : List String) : Value :=
  .array (items.map .string)

-- The digits of a control character behind `\u00`.
def hexDigits (code : Nat) : List Char :=
  [(code / 16).digitChar, (code % 16).digitChar]

-- A character within quotes. Quotes, backslashes and control characters are escaped, the usual ones
-- of them by a letter.
def escape (c : Char) : List Char :=
  if c = '"' then ['\\', '"']
  else if c = '\\' then ['\\', '\\']
  else if c = '\n' then ['\\', 'n']
  else if c = '\r' then ['\\', 'r']
  else if c = '\t' then ['\\', 't']
  else if c.toNat = 8 then ['\\', 'b']
  else if c.toNat = 12 then ['\\', 'f']
  else if c.toNat < 32 then '\\' :: 'u' :: '0' :: '0' :: hexDigits c.toNat
  else [c]

def quote (s : String) : List Char :=
  '"' :: s.toList.flatMap escape ++ ['"']

-- A new line at a level of indentation.
def newLine (level : Nat) : List Char :=
  '\n' :: List.replicate (2 * level) ' '

mutual

-- A value whose first character stands on a line of the given level.
def prettyAt (level : Nat) : Value → List Char
  | .null => "null".toList
  | .bool b => (if b then "true" else "false").toList
  | .number n => Nat.toDigits 10 n
  | .string s => quote s
  | .array [] => ['[', ']']
  | .array (item :: items) =>
    '[' :: newLine (level + 1) ++ prettyAt (level + 1) item ++ prettyItems (level + 1) items
      ++ newLine level ++ [']']
  | .object [] => ['\x7b', '\x7d']
  | .object ((key, value) :: members) =>
    '\x7b' :: newLine (level + 1) ++ quote key ++ ':' :: ' ' :: prettyAt (level + 1) value
      ++ prettyMembers (level + 1) members ++ newLine level ++ ['\x7d']

-- The items of an array behind the first.
def prettyItems (level : Nat) : List Value → List Char
  | [] => []
  | item :: items => ',' :: newLine level ++ prettyAt level item ++ prettyItems level items

-- The members of an object behind the first.
def prettyMembers (level : Nat) : List (String × Value) → List Char
  | [] => []
  | (key, value) :: members =>
    ',' :: newLine level ++ quote key ++ ':' :: ' ' :: prettyAt level value
      ++ prettyMembers level members

end

-- The text of a value as it is put out, on lines of its own.
def render (v : Value) : String :=
  String.ofList (v.prettyAt 0 ++ ['\n'])

end Value
end Repin.Json
