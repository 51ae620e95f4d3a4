import Repin.Json.Lexeme
import Repin.Locate.Site
/-!
# JSON documents with comments

Strict JSON, and further comments and one comma behind the last member of an object or array. A
document shows its string values as sites; the strings of an object are the fields of its members.
-/
namespace Repin

-- A JSON value. Only strings are kept; of other scalars just their place in the tree.
inductive Json where
  | object (members : List (Json.StringLiteral × Json))
  | array (items : List Json)
  | string (literal : Json.StringLiteral)
  | other

namespace Json

-- The place of the next lexeme.
def placeOf : List LocatedLexeme → Nat
  | [] => 0
  | ⟨start, _⟩ :: _ => start

-- Where reading a string stops: inside it if it is broken, else in front of the lexeme.
def stringStop : List LocatedLexeme → Nat
  | ⟨_, .brokenString stop⟩ :: _ => stop
  | lexemes => placeOf lexemes

mutual

-- Reads a value in a number of steps; an error is the place where reading stopped. Twice as
-- many steps as there are lexemes are enough: only the step from an item to its value takes none.
def readValue : Nat → List LocatedLexeme → Except Nat (Json × List LocatedLexeme)
  | 0, lexemes => .error (placeOf lexemes)
  | steps + 1, ⟨_, .punctuation .openObject⟩ :: rest =>
    match readMembers steps rest with
    | .error stop => .error stop
    | .ok (members, after) => .ok (.object members, after)
  | steps + 1, ⟨_, .punctuation .openArray⟩ :: rest =>
    match readItems steps rest with
    | .error stop => .error stop
    | .ok (items, after) => .ok (.array items, after)
  | _ + 1, ⟨_, .string literal⟩ :: rest => .ok (.string literal, rest)
  | _ + 1, ⟨_, .scalar⟩ :: rest => .ok (.other, rest)
  | _ + 1, lexemes => .error (stringStop lexemes)

-- Reads the members of an object and its closing brace.
def readMembers :
    Nat → List LocatedLexeme → Except Nat (List (StringLiteral × Json) × List LocatedLexeme)
  | 0, lexemes => .error (placeOf lexemes)
  | _ + 1, ⟨_, .punctuation .closeObject⟩ :: rest => .ok ([], rest)
  | steps + 1, ⟨_, .string key⟩ :: ⟨_, .punctuation .colon⟩ :: rest =>
    match readValue steps rest with
    | .error stop => .error stop
    | .ok (value, ⟨_, .punctuation .closeObject⟩ :: after) => .ok ([(key, value)], after)
    | .ok (value, ⟨_, .punctuation .comma⟩ :: next) =>
      match readMembers steps next with
      | .error stop => .error stop
      | .ok (members, after) => .ok ((key, value) :: members, after)
    | .ok (_, after) => .error (placeOf after)
  | _ + 1, ⟨_, .string _⟩ :: rest => .error (placeOf rest)
  | _ + 1, lexemes => .error (stringStop lexemes)

-- Reads the items of an array and its closing bracket.
def readItems : Nat → List LocatedLexeme → Except Nat (List Json × List LocatedLexeme)
  | 0, lexemes => .error (placeOf lexemes)
  | _ + 1, ⟨_, .punctuation .closeArray⟩ :: rest => .ok ([], rest)
  | steps + 1, lexemes =>
    match readValue steps lexemes with
    | .error stop => .error stop
    | .ok (value, ⟨_, .punctuation .closeArray⟩ :: after) => .ok ([value], after)
    | .ok (value, ⟨_, .punctuation .comma⟩ :: next) =>
      match readItems steps next with
      | .error stop => .error stop
      | .ok (items, after) => .ok (value :: items, after)
    | .ok (_, after) => .error (placeOf after)

end

mutual

-- The sites of a value at the end of a path.
def sitesOf (path : List Frame) : Json → List Site
  | string literal =>
    [{ path, value := literal.value, span := literal.span, block := false,
       patchable := !literal.escaped }]
  | array items => sitesOfItems path 0 items
  | object members => sitesOfMembers path (fieldsOf members) members
  | other => []

-- The sites of the items of an array, from a position on.
def sitesOfItems (path : List Frame) (position : Nat) : List Json → List Site
  | [] => []
  | item :: items =>
    sitesOf (path ++ [{ segment := .index position }]) item
      ++ sitesOfItems path (position + 1) items

-- The sites of the members of an object, each of which shows the same fields.
def sitesOfMembers (path : List Frame) (fields : List (String × String)) :
    List (StringLiteral × Json) → List Site
  | [] => []
  | (key, value) :: members =>
    sitesOf (path ++ [⟨.key key.value, fields⟩]) value ++ sitesOfMembers path fields members

-- The members of an object that are strings.
def fieldsOf : List (StringLiteral × Json) → List (String × String)
  | [] => []
  | (key, string literal) :: members => (key.value, literal.value) :: fieldsOf members
  | _ :: members => fieldsOf members

end

-- The sites of a document in the order of its text.
def sites (root : Json) : List Site :=
  sitesOf [] root

-- A malformed text: nothing that JSON allows is at the place.
def malformed (cs : List Char) (offset : Nat) : SyntaxError :=
  ⟨"json", Text.position cs offset, "malformed JSON"⟩

-- Reads a document: one value, with blanks and comments around it.
def parse (text : String) : Except SyntaxError Json :=
  let cs := text.toList
  let ls := lexemes cs
  match readValue (2 * ls.length) ls with
  | .error offset => .error (malformed cs offset)
  | .ok (root, rest) =>
    let stop := placeOf rest
    if stop = Text.byteLength cs then .ok root
    else .error ⟨"json", Text.position cs stop, "trailing characters after document"⟩

end Json
end Repin
