import Repin.Text.Split
import Repin.Toml.Item
/-!
# TOML documents

A reader for TOML 1.0. Floats and points in time are checked and not kept.
-/
namespace Repin.Toml

-- A reader takes what it reads off the text; an error is a reason.
abbrev TomlM := StateT (List Char) (Except String)

namespace TomlM

def peek : TomlM (Option Char) := do return (← get).head?
def pass (n : Nat) : TomlM Unit := modify (·.drop n)

def startsWith (s : String) : TomlM Bool := do
  return s.toList.isPrefixOf (← get)

-- Passes a text if it stands here.
def accept? (s : String) : TomlM Bool := do
  if ← startsWith s then
    pass s.length
    return true
  return false

-- Passes the first of some texts that stands here.
def acceptAny? : List String → TomlM Bool
  | [] => return false
  | s :: rest => do if ← accept? s then return true else acceptAny? rest

def accept (s : String) : TomlM Unit := do
  unless ← accept? s do throw ("expected " ++ s)

def takeWhile (p : Char → Bool) : TomlM (List Char) := do
  let (taken, rest) := (← get).span p
  set rest
  return taken

/-! Blanks, comments and line ends -/

def isBlankChar (c : Char) : Bool := c == ' ' || c == '\t'

-- The characters of comments; quoted text allows a subset of them.
def isPrintable (c : Char) : Bool :=
  c == '\t' || (0x20 ≤ c.toNat && c.toNat != 0x7F)

def skipBlanks : TomlM Unit := do
  let _ ← takeWhile isBlankChar

-- Passes a line end, if one is here.
def skipLineEnd? : TomlM Bool := do
  if ← accept? "\n" then return true
  accept? "\r\n"

def skipComment : TomlM Unit := do
  if ← accept? "#" then
    let _ ← takeWhile isPrintable

-- Passes what may stand behind an expression, up to the end of its line.
def skipLineRest : TomlM Unit := do
  skipBlanks
  skipComment
  unless ← skipLineEnd? do
    if (← peek).isSome then throw "unexpected text in a line"

-- Passes blanks, line ends and comments.
def skipSpace : Nat → TomlM Unit
  | 0 => pure ()
  | n + 1 => do
    skipBlanks
    skipComment
    if ← skipLineEnd? then skipSpace n

-- Passes all blanks, line ends and comments that stand here.
def skipAllSpace : TomlM Unit := do
  skipSpace ((← get).length + 1)

/-! Strings -/

def hexValue? (c : Char) : Option Nat :=
  if c.isDigit then some (c.toNat - 48)
  else if 'a' ≤ c ∧ c ≤ 'f' then some (c.toNat - 87)
  else if 'A' ≤ c ∧ c ≤ 'F' then some (c.toNat - 55)
  else none

-- Reads the digits of a character reference.
def readCodePoint (length : Nat) : TomlM Char := do
  let digits := (← get).take length
  let some values := digits.mapM hexValue? | throw "invalid escape"
  let code := values.foldl (fun n d => n * 16 + d) 0
  unless digits.length = length && code.isValidChar do throw "invalid escape"
  pass length
  return Char.ofNat code

-- Reads an escape behind its backslash.
def readEscape : TomlM Char := do
  let some c ← peek | throw "invalid escape"
  pass 1
  match c with
  | 'b' => return '\x08'
  | 't' => return '\t'
  | 'n' => return '\n'
  | 'f' => return '\x0c'
  | 'r' => return '\r'
  | '"' => return '"'
  | '\\' => return '\\'
  | 'u' => readCodePoint 4
  | 'U' => readCodePoint 8
  | _ => throw "invalid escape"

-- Reads a basic string behind its quote.
def readBasic : Nat → TomlM (List Char)
  | 0 => throw "a string is not closed"
  | n + 1 => do
    match ← peek with
    | some '"' =>
      pass 1
      return []
    | some '\\' =>
      pass 1
      let c ← readEscape
      return c :: (← readBasic n)
    | some c =>
      unless isPrintable c do throw "a character that may not stand in a string"
      pass 1
      return c :: (← readBasic n)
    | none => throw "a string is not closed"

-- Reads a literal string behind its quote.
def readLiteral : TomlM (List Char) := do
  let text ← takeWhile fun c => isPrintable c && c != Char.ofNat 39
  accept "\x27"
  return text

-- The number of quotes that stand here, up to five: up to two of them may belong to a text in front
-- of three that close it.
def quotesHere (quote : Char) : TomlM Nat := do
  return ((← get).take 5 |>.takeWhile (· == quote)).length

-- Reads one piece of a text on several lines: a line end, an escape, an escaped line end with the
-- blank text behind it, or a character.
def readPiece (escapes : Bool) : TomlM (List Char) := do
  if ← skipLineEnd? then return ['\n']
  match ← peek with
  | none => throw "a string is not closed"
  | some c =>
    pass 1
    if escapes && c == '\\' then
      let here ← get
      skipBlanks
      if ← skipLineEnd? then
        let _ ← takeWhile fun c => isBlankChar c || c == '\n' || c == '\r'
        return []
      set here
      return [← readEscape]
    unless isPrintable c do throw "a character that may not stand in a string"
    return [c]

-- Reads a text on several lines behind its quotes.
def readLines (quote : Char) : Nat → TomlM (List Char)
  | 0 => throw "a string is not closed"
  | n + 1 => do
    let quotes ← quotesHere quote
    if 3 ≤ quotes then
      pass quotes
      return List.replicate (quotes - 3) quote
    if 0 < quotes then
      pass quotes
      return List.replicate quotes quote ++ (← readLines quote n)
    let piece ← readPiece (quote == '"')
    return piece ++ (← readLines quote n)

def readString : TomlM String := do
  let length := (← get).length
  if ← accept? "\"\"\"" then
    let _ ← skipLineEnd?
    return String.ofList (← readLines '"' length)
  if ← accept? "\x27\x27\x27" then
    let _ ← skipLineEnd?
    return String.ofList (← readLines (Char.ofNat 39) length)
  if ← accept? "\"" then
    return String.ofList (← readBasic length)
  accept "\x27"
  return String.ofList (← readLiteral)

/-! Keys -/

def isBareKeyChar (c : Char) : Bool :=
  c.isAlphanum || c == '_' || c == '-'

-- Reads a part of a key. It may not be a text on several lines.
def readSimpleKey : TomlM String := do
  if ← accept? "\"" then
    return String.ofList (← readBasic ((← get).length + 1))
  if ← accept? "\x27" then
    return String.ofList (← readLiteral)
  let name ← takeWhile isBareKeyChar
  if name.isEmpty then throw "invalid key"
  return String.ofList name

-- Reads a dotted key: the parts in front of the last one, and the last one.
def readKey : Nat → TomlM (List String × String)
  | 0 => throw "a key with too many parts"
  | n + 1 => do
    skipBlanks
    let name ← readSimpleKey
    skipBlanks
    if ← accept? "." then
      let (path, last) ← readKey n
      return (name :: path, last)
    return ([], name)

/-! Numbers and points in time -/

-- Digits of a base with single underscores between them; gives them without the underscores.
def readDigits (isDigit : Char → Bool) : Nat → TomlM (List Char)
  | 0 => throw "invalid number"
  | n + 1 => do
    let digits ← takeWhile isDigit
    if digits.isEmpty then throw "invalid number"
    if ← accept? "_" then
      return digits ++ (← readDigits isDigit n)
    return digits

def readSomeDigits (isDigit : Char → Bool) : TomlM (List Char) := do
  readDigits isDigit ((← get).length + 1)

def natOf (base : Nat) (digits : List Char) : Nat :=
  digits.foldl (fun n c => n * base + (hexValue? c).getD 0) 0

-- An integer of 64 bits.
def integerItem (n : Int) : TomlM Item := do
  unless -0x8000000000000000 ≤ n ∧ n < 0x8000000000000000 do throw "a number is too large"
  return .integer n

-- Reads the fraction and the exponent of a float: the digits behind the point and the power of ten.
-- Without both, the number is none.
def readFloatRest : TomlM (Option (List Char × Int)) := do
  let fraction ←
    if ← accept? "." then do pure (some (← readSomeDigits Char.isDigit)) else pure none
  let exponent ←
    if ← acceptAny? ["e", "E"] then do
      let negative ← accept? "-"
      unless negative do
        let _ ← accept? "+"
      let n := natOf 10 (← readSomeDigits Char.isDigit)
      pure (some (if negative then -(n : Int) else n))
    else
      pure none
  if fraction.isNone && exponent.isNone then return none
  return some (fraction.getD [], exponent.getD 0)

-- The least number that is rounded to infinity.
def leastInfinite : Nat :=
  Nat.pow 2 1024 - Nat.pow 2 970

-- Whether a decimal number is past the largest float. The digits stand in front of the power.
def overflows (digits : List Char) (power : Int) : Bool :=
  let m := natOf 10 digits
  if m = 0 then false
  else if 400 < power then true
  else if 0 ≤ power then leastInfinite ≤ m * Nat.pow 10 power.toNat
  else if power < -(digits.length + 400 : Int) then false
  else leastInfinite * Nat.pow 10 (-power).toNat ≤ m

-- Reads a decimal number behind its sign.
def readDecimal (negative : Bool) : TomlM Item := do
  let digits ←
    if (← peek) = some '0' then do
      pass 1
      pure ['0']
    else readSomeDigits Char.isDigit
  match ← readFloatRest with
  | none =>
    let n : Int := natOf 10 digits
    integerItem (if negative then -n else n)
  | some (fraction, exponent) =>
    if !negative && overflows (digits ++ fraction) (exponent - fraction.length) then
      throw "a number is too large"
    return .scalar

-- Reads a fixed number of digits, whose number has to lie between two others.
def readField (length low high : Nat) : TomlM Nat := do
  let digits := (← get).take length
  unless digits.length = length && digits.all Char.isDigit do throw "invalid date or time"
  let n := natOf 10 digits
  unless low ≤ n && n ≤ high do throw "invalid date or time"
  pass length
  return n

def daysOf (year month : Nat) : Nat :=
  if month = 2 then
    if (year % 4 = 0 ∧ year % 100 ≠ 0) ∨ year % 400 = 0 then 29 else 28
  else if month = 4 ∨ month = 6 ∨ month = 9 ∨ month = 11 then 30
  else 31

def readTime : TomlM Unit := do
  let _ ← readField 2 0 23
  accept ":"
  let _ ← readField 2 0 59
  accept ":"
  let _ ← readField 2 0 60
  if ← accept? "." then
    if (← takeWhile Char.isDigit).isEmpty then throw "invalid date or time"

def readOffset : TomlM Unit := do
  if ← acceptAny? ["Z", "z"] then return
  if ← acceptAny? ["+", "-"] then
    let _ ← readField 2 0 23
    accept ":"
    let _ ← readField 2 0 59

def readDate : TomlM Unit := do
  let year ← readField 4 0 9999
  accept "-"
  let month ← readField 2 1 12
  accept "-"
  let _ ← readField 2 1 (daysOf year month)
  let rest ← get
  match rest with
  | c :: a :: b :: ':' :: _ =>
    if (c == 'T' || c == 't' || c == ' ') && a.isDigit && b.isDigit then
      pass 1
      readTime
      readOffset
  | _ => pure ()

-- Reads a number or a point in time.
def readNumeric : TomlM Item := do
  let cs ← get
  let leading := cs.takeWhile Char.isDigit
  if leading.length = 4 && cs[4]? = some '-' then
    readDate
    return .scalar
  if leading.length = 2 && cs[2]? = some ':' then
    readTime
    return .scalar
  if ← accept? "0x" then
    return ← integerItem (natOf 16 (← readSomeDigits fun c => (hexValue? c).isSome))
  if ← accept? "0o" then
    return ← integerItem (natOf 8 (← readSomeDigits fun c => '0' ≤ c && c ≤ '7'))
  if ← accept? "0b" then
    return ← integerItem (natOf 2 (← readSomeDigits fun c => c == '0' || c == '1'))
  let negative ← accept? "-"
  unless negative do
    let _ ← accept? "+"
  if ← acceptAny? ["inf", "nan"] then
    return .scalar
  readDecimal negative

/-! Values -/

-- Reads the items of an array behind its bracket; `value` reads one.
def readItems (value : TomlM Item) : Nat → TomlM (List Item)
  | 0 => throw "an array is not closed"
  | n + 1 => do
    skipAllSpace
    if ← accept? "]" then return []
    let item ← value
    skipAllSpace
    if ← accept? "," then
      return item :: (← readItems value n)
    accept "]"
    return [item]

-- Reads the entries of a table behind its brace, at least one.
def readEntries (value : TomlM Item) : Nat → Entries → TomlM Entries
  | 0, _ => throw "a table is not closed"
  | n + 1, entries => do
    let (path, name) ← readKey 80
    accept "="
    skipBlanks
    let item ← value
    skipBlanks
    let entries ← addValue path name item .defined entries
    if ← accept? "," then
      readEntries value n entries
    else
      accept "\x7d"
      return entries

-- Reads a value; arrays and tables in it may be nested up to a depth.
def readValue : Nat → TomlM Item
  | 0 => throw "values are nested too deeply"
  | depth + 1 => do
    match ← peek with
    | some '[' =>
      pass 1
      return .array (← readItems (readValue depth) ((← get).length + 1))
    | some '\x7b' =>
      pass 1
      skipBlanks
      if ← accept? "\x7d" then return .inline []
      return .inline (← readEntries (readValue depth) ((← get).length + 1) [])
    | some c =>
      if c == '"' || c == Char.ofNat 39 then return .string (← readString)
      if ← accept? "true" then return .boolean true
      if ← accept? "false" then return .boolean false
      if c.isDigit || c == '+' || c == '-' || c == 'i' || c == 'n' then readNumeric
      else throw "invalid value"
    | none => throw "a value is missing"

/-! Expressions -/

-- Reads the expressions of a document, one in a line, below the last header.
def readExpressions : Nat → List String → Entries → TomlM Entries
  | 0, _, entries => return entries
  | n + 1, header, entries => do
    skipBlanks
    match ← peek with
    | none => return entries
    | some '[' =>
      pass 1
      let repeated ← accept? "["
      let (path, name) ← readKey 80
      accept "]"
      if repeated then accept "]"
      skipLineRest
      let entries ←
        if repeated then addToTables path name entries else addTable path name entries
      readExpressions n (path ++ [name]) entries
    | some c =>
      if c == '#' || c == '\n' || c == '\r' then
        skipLineRest
        readExpressions n header entries
      else
        let (path, name) ← readKey 80
        accept "="
        skipBlanks
        let value ← readValue 80
        skipLineRest
        readExpressions n header (← addUnder header path name value entries)

end TomlM

-- Reads a document; an error is a reason.
def parse (text : String) : Except String Entries := do
  let cs := text.toList
  let cs := (Text.stripStart? ['\uFEFF'] cs).getD cs
  let (entries, _) ← (TomlM.readExpressions (cs.length + 1) [] []).run cs
  return entries

end Repin.Toml
