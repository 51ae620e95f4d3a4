import Repin.Json.Document
/-!
# The grammar of JSON with comments

Each rule relates a text to what is left of it behind a part of the given kind. So a comment can tell
whether it ends with the line or with the text, and a string knows where it stands. The rules leave open
how far blanks and numbers reach; what has to follow them decides.
-/
namespace Repin.Json

-- A character that stands for itself within quotes.
def IsPlain (c : Char) : Prop :=
  c ≠ '"' ∧ c ≠ '\\' ∧ ¬ c < ' '

-- What ends a line comment.
def Breaks (cs : List Char) : Prop :=
  cs.head? = some '\n' ∨ (cs.head? = some '\r' ∧ cs.tail.head? = some '\n')

namespace Grammar

-- Blanks and comments, in any order and number.
inductive Trivia : List Char → List Char → Prop where
  | done {cs : List Char} : Trivia cs cs
  | blank {c : Char} {cs rest : List Char} :
    c ∈ [' ', '\t', '\r', '\n'] → Trivia cs rest → Trivia (c :: cs) rest
  -- A line comment ends with the line or the text, and has no other carriage return.
  | line {body after rest : List Char} :
    '\n' ∉ body → '\r' ∉ body → after = [] ∨ Breaks after → Trivia after rest →
      Trivia ('/' :: '/' :: (body ++ after)) rest
  -- A block comment ends at the first `*/`.
  | block {body after rest : List Char} :
    ¬ ['*', '/'] <:+: body → Trivia after rest →
      Trivia ('/' :: '*' :: (body ++ '*' :: '/' :: after)) rest

-- The letters behind a backslash, with what they stand for.
def escapes : List (Char × Char) :=
  [('"', '"'), ('\\', '\\'), ('/', '/'), ('b', '\x08'), ('f', '\x0c'), ('n', '\n'), ('r', '\r'),
    ('t', '\t')]

inductive HexDigit : Char → Nat → Prop where
  | digit {c : Char} : '0' ≤ c → c ≤ '9' → HexDigit c (c.toNat - '0'.toNat)
  | lower {c : Char} : 'a' ≤ c → c ≤ 'f' → HexDigit c (c.toNat - 'a'.toNat + 10)
  | upper {c : Char} : 'A' ≤ c → c ≤ 'F' → HexDigit c (c.toNat - 'A'.toNat + 10)

-- What stands between the quotes of a string, with its value.
inductive Quoted : List Char → List Char → Prop where
  | nil : Quoted [] []
  | plain {c : Char} {content value : List Char} :
    IsPlain c → Quoted content value → Quoted (c :: content) (c :: value)
  | escape {c e : Char} {content value : List Char} :
    (c, e) ∈ escapes → Quoted content value → Quoted ('\\' :: c :: content) (e :: value)
  | unicode {a b c d : Char} {i j k l : Nat} {content value : List Char} :
    HexDigit a i → HexDigit b j → HexDigit c k → HexDigit d l → Quoted content value →
      Quoted ('\\' :: 'u' :: a :: b :: c :: d :: content)
        (charOfCode (((i * 16 + j) * 16 + k) * 16 + l) :: value)

inductive Scalar : List Char → Prop where
  | word {name : String} : name ∈ ["true", "false", "null"] → Scalar name.toList
  | number {cs : List Char} :
    cs ≠ [] → (∀ c ∈ cs, c.isDigit ∨ c ∈ ['-', '+', '.', 'e', 'E']) → Scalar cs

-- A string of a document whose length in bytes is given: what is left behind the string tells where
-- its content stands.
inductive Literal (length : Nat) : List Char → StringLiteral → List Char → Prop where
  | quotes {content value rest : List Char} :
    Quoted content value → Literal length ('"' :: (content ++ '"' :: rest))
      ⟨String.ofList value, .ofLength (length - Text.byteLength (content ++ '"' :: rest))
        (Text.byteLength content), content.contains '\\'⟩ rest

-- The name of a member and the colon behind it.
inductive Key (length : Nat) : List Char → StringLiteral → List Char → Prop where
  | colon {cs next after rest : List Char} {key : StringLiteral} :
    Trivia cs next → Literal length next key after → Trivia after (':' :: rest) →
      Key length cs key rest

-- The end of an object or array that is not empty: a comma may stand in front of it.
inductive Closes (c : Char) : List Char → List Char → Prop where
  | here {rest : List Char} : Closes c (c :: rest) rest
  | comma {cs rest : List Char} : Trivia cs (c :: rest) → Closes c (',' :: cs) rest

mutual

inductive Value (length : Nat) : List Char → Json → List Char → Prop where
  | string {cs rest : List Char} {l : StringLiteral} :
    Literal length cs l rest → Value length cs (.string l) rest
  | scalar {scalar rest : List Char} : Scalar scalar → Value length (scalar ++ rest) .other rest
  | emptyObject {cs rest : List Char} :
    Trivia cs ('\x7d' :: rest) → Value length ('\x7b' :: cs) (.object []) rest
  | object {cs after rest : List Char} {members : List (StringLiteral × Json)} :
    Members length cs members after → Closes '\x7d' after rest →
      Value length ('\x7b' :: cs) (.object members) rest
  | emptyArray {cs rest : List Char} :
    Trivia cs (']' :: rest) → Value length ('[' :: cs) (.array []) rest
  | array {cs after rest : List Char} {items : List Json} :
    Items length cs items after → Closes ']' after rest → Value length ('[' :: cs) (.array items) rest

-- One member or more, with commas between them.
inductive Members (length : Nat) : List Char → List (StringLiteral × Json) → List Char → Prop where
  | one {cs colon next after rest : List Char} {key : StringLiteral} {value : Json} :
    Key length cs key colon → Trivia colon next → Value length next value after →
      Trivia after rest → Members length cs [(key, value)] rest
  | more {cs colon next after others rest : List Char} {key : StringLiteral} {value : Json}
      {members : List (StringLiteral × Json)} :
    Key length cs key colon → Trivia colon next → Value length next value after →
      Trivia after (',' :: others) → Members length others members rest →
        Members length cs ((key, value) :: members) rest

-- One item or more, with commas between them.
inductive Items (length : Nat) : List Char → List Json → List Char → Prop where
  | one {cs next after rest : List Char} {value : Json} :
    Trivia cs next → Value length next value after → Trivia after rest → Items length cs [value] rest
  | more {cs next after others rest : List Char} {value : Json} {items : List Json} :
    Trivia cs next → Value length next value after → Trivia after (',' :: others) →
      Items length others items rest → Items length cs (value :: items) rest

end

-- A document is one value, with blanks and comments around it.
inductive Document (cs : List Char) (root : Json) : Prop where
  | value {next after : List Char} :
    Trivia cs next → Value (Text.byteLength cs) next root after → Trivia after [] → Document cs root

end Grammar
end Repin.Json
