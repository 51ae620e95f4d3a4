import Repin.Span
import Repin.Text.Bytes
import Repin.Text.Split
/-!
# Lexemes of JSON with comments

A text is cut into punctuation, strings and scalars; blanks and comments between them are left out.
The list ends with a lexeme that nothing accepts: the end of the text, or the place where no lexeme
starts. A string that is broken inside ends the list too, and remembers where reading it stopped.
-/
namespace Repin.Json

-- A string: its value, and what stands between the quotes.
structure StringLiteral where
  value : String
  span : Span
  -- Whether the source has escapes, so that it differs from the value.
  escaped : Bool
  deriving DecidableEq

inductive Punctuation where
  | openObject
  | closeObject
  | openArray
  | closeArray
  | colon
  | comma
  deriving DecidableEq, Repr

inductive Lexeme where
  | punctuation (p : Punctuation)
  | string (literal : StringLiteral)
  -- A number, `true`, `false` or `null`; only its extent matters.
  | scalar
  -- A string that is broken at an offset.
  | brokenString (stop : Nat)
  -- Nothing starts here: the end of the text, or a character of no lexeme.
  | nothing
  deriving DecidableEq

structure LocatedLexeme where
  start : Nat
  lexeme : Lexeme
  deriving DecidableEq

def isSpace (c : Char) : Bool :=
  c == ' ' || c == '\t' || c == '\r' || c == '\n'

-- The rest of a text from the end of a line comment on. A carriage return that does not belong to a
-- line terminator makes the comment none.
def afterLineComment? : List Char → Option (List Char)
  | [] => some []
  | '\n' :: cs => some ('\n' :: cs)
  | '\r' :: '\n' :: cs => some ('\r' :: '\n' :: cs)
  | '\r' :: _ => none
  | _ :: cs => afterLineComment? cs

-- The rest of a text behind the end of a block comment.
def afterBlockComment? : List Char → Option (List Char)
  | [] => none
  | '*' :: '/' :: cs => some cs
  | _ :: cs => afterBlockComment? cs

theorem length_afterLineComment? {cs rest : List Char} (h : afterLineComment? cs = some rest) :
    rest.length ≤ cs.length := by
  fun_induction afterLineComment? cs <;> grind

theorem length_afterBlockComment? {cs rest : List Char} (h : afterBlockComment? cs = some rest) :
    rest.length ≤ cs.length := by
  fun_induction afterBlockComment? cs <;> grind

-- A text without the blanks and comments at its start.
def skipTrivia (cs : List Char) : List Char :=
  match cs with
  | [] => []
  | '/' :: '/' :: rest =>
    match _h : afterLineComment? rest with
    | some after => skipTrivia after
    | none => cs
  | '/' :: '*' :: rest =>
    match _h : afterBlockComment? rest with
    | some after => skipTrivia after
    | none => cs
  | c :: rest => if isSpace c then skipTrivia rest else cs
termination_by cs.length
decreasing_by
  · have := length_afterLineComment? _h
    grind
  · have := length_afterBlockComment? _h
    grind
  · grind

-- The character that a letter behind a backslash stands for.
def simpleEscape? : Char → Option Char
  | '"' => some '"'
  | '\\' => some '\\'
  | '/' => some '/'
  | 'b' => some '\x08'
  | 'f' => some '\x0c'
  | 'n' => some '\n'
  | 'r' => some '\r'
  | 't' => some '\t'
  | _ => none

def hexValue? (c : Char) : Option Nat :=
  if c.isDigit then some (c.toNat - 48)
  else if 'a' ≤ c ∧ c ≤ 'f' then some (c.toNat - 87)
  else if 'A' ≤ c ∧ c ≤ 'F' then some (c.toNat - 55)
  else none

-- The character of a code point; the replacement character for half a surrogate pair.
def charOfCode (code : Nat) : Char :=
  if code.isValidChar then Char.ofNat code else '\uFFFD'

-- The character of four hexadecimal digits.
def unicodeEscape? (a b c d : Char) : Option Char := do
  return charOfCode
    ((((← hexValue? a) * 16 + (← hexValue? b)) * 16 + (← hexValue? c)) * 16 + (← hexValue? d))

-- What stands between the quotes of a string, its value, and the text behind the closing quote.
structure StringBody where
  content : List Char
  value : List Char
  rest : List Char

-- A body with more of its content in front.
def StringBody.push (b : StringBody) (content : List Char) (value : Char) : StringBody :=
  ⟨content ++ b.content, value :: b.value, b.rest⟩

-- Reads a string behind its opening quote; an error is the number of bytes read before the string
-- turned out to be broken.
def readString : List Char → Except Nat StringBody
  | [] => .error 0
  | '"' :: rest => .ok ⟨[], [], rest⟩
  | '\\' :: 'u' :: a :: b :: c :: d :: rest =>
    match unicodeEscape? a b c d with
    | none => .error 2
    | some e =>
      match readString rest with
      | .ok body => .ok (body.push ['\\', 'u', a, b, c, d] e)
      | .error n => .error (6 + n)
  | '\\' :: 'u' :: _ => .error 2
  | '\\' :: c :: rest =>
    match simpleEscape? c with
    | none => .error (1 + c.utf8Size)
    | some e =>
      match readString rest with
      | .ok body => .ok (body.push ['\\', c] e)
      | .error n => .error (2 + n)
  | ['\\'] => .error 1
  | c :: rest =>
    if c < ' ' then
      .error c.utf8Size
    else
      match readString rest with
      | .ok body => .ok (body.push [c] c)
      | .error n => .error (c.utf8Size + n)

theorem length_readString {cs : List Char} {body : StringBody} (h : readString cs = .ok body) :
    body.rest.length < cs.length := by
  fun_induction readString cs generalizing body <;> cases h
  case case2 => simp
  all_goals
    rename_i body hb ih
    have := ih hb
    simp only [StringBody.push, List.length_cons]
    omega

def isNumberChar (c : Char) : Bool :=
  c.isDigit || c == '-' || c == '+' || c == '.' || c == 'e' || c == 'E'

-- The text behind a scalar.
def afterScalar? (cs : List Char) : Option (List Char) :=
  match cs with
  | 't' :: 'r' :: 'u' :: 'e' :: rest => some rest
  | 'f' :: 'a' :: 'l' :: 's' :: 'e' :: rest => some rest
  | 'n' :: 'u' :: 'l' :: 'l' :: rest => some rest
  | c :: rest => if isNumberChar c then some (rest.dropWhile isNumberChar) else none
  | [] => none

theorem length_afterScalar? {cs rest : List Char} (h : afterScalar? cs = some rest) :
    rest.length < cs.length := by
  unfold afterScalar? at h
  split at h
  case h_4 c tail _ _ _ =>
    have := (List.dropWhile_sublist isNumberChar (l := tail)).length_le
    grind
  all_goals grind

def punctuation? : Char → Option Punctuation
  | '\x7b' => some .openObject
  | '\x7d' => some .closeObject
  | '[' => some .openArray
  | ']' => some .closeArray
  | ':' => some .colon
  | ',' => some .comma
  | _ => none

theorem length_skipTrivia (cs : List Char) : (skipTrivia cs).length ≤ cs.length := by
  fun_induction skipTrivia cs with
  | case1 => simp
  | case2 rest after h ih => have := length_afterLineComment? h; simp; omega
  | case3 => simp
  | case4 rest after h ih => have := length_afterBlockComment? h; simp; omega
  | case5 => simp
  | case6 => simp; omega
  | case7 => simp

-- The lexemes of a text that starts at an offset.
def lexemesFrom (offset : Nat) (cs : List Char) : List LocatedLexeme :=
  let text := skipTrivia cs
  let start := offset + (Text.byteLength cs - Text.byteLength text)
  match _ht : text with
  | [] => [⟨start, .nothing⟩]
  | '"' :: rest =>
    match hs : readString rest with
    | .error n => [⟨start, .brokenString (start + 1 + n)⟩]
    | .ok body =>
      let length := Text.byteLength body.content
      let literal : StringLiteral :=
        ⟨String.ofList body.value, .ofLength (start + 1) length, body.content.contains '\\'⟩
      ⟨start, .string literal⟩ :: lexemesFrom (start + length + 2) body.rest
  | c :: rest =>
    match punctuation? c with
    | some p => ⟨start, .punctuation p⟩ :: lexemesFrom (start + c.utf8Size) rest
    | none =>
      match _hr : afterScalar? (c :: rest) with
      | some after =>
        ⟨start, .scalar⟩
          :: lexemesFrom (start + (Text.byteLength (c :: rest) - Text.byteLength after)) after
      | none => [⟨start, .nothing⟩]
termination_by cs.length
decreasing_by
  · have := length_skipTrivia cs
    have := length_readString hs
    grind
  · have := length_skipTrivia cs
    grind
  · have := length_skipTrivia cs
    have := length_afterScalar? _hr
    grind

-- The lexemes of a text.
def lexemes (cs : List Char) : List LocatedLexeme :=
  lexemesFrom 0 cs

end Repin.Json
