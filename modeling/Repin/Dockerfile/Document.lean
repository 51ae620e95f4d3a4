import Repin.Locate.Site
import Repin.Text.Blank
/-!
# Dockerfiles

Only `FROM` instructions are read. Such a line names an image, behind flags that start with `--`, and
may name a stage behind `AS`. Every text is a Dockerfile; other lines are passed over.
-/
namespace Repin.Dockerfile

-- A word of a line and the byte offset at which it starts.
structure Word where
  start : Nat
  text : List Char
  deriving DecidableEq

-- The words from an offset on, of which `word` has been read in reverse.
def wordsFrom (offset : Nat) (word : List Char) : List Char → List Word
  | [] => if word.isEmpty then [] else [⟨offset - Text.byteLength word, word.reverse⟩]
  | c :: cs =>
    if Text.isBlank c then
      let rest := wordsFrom (offset + c.utf8Size) [] cs
      if word.isEmpty then rest else ⟨offset - Text.byteLength word, word.reverse⟩ :: rest
    else
      wordsFrom (offset + c.utf8Size) (c :: word) cs

-- The words of a line that starts at an offset.
def words (offset : Nat) (line : List Char) : List Word :=
  wordsFrom offset [] line

-- The image of a `FROM` instruction and the name of its stage.
structure FromLine where
  image : Word
  stage : Option String
  deriving DecidableEq

-- Whether a word is a keyword, in any case.
def Word.is (w : Word) (keyword : String) : Bool :=
  w.text.map Char.toUpper == keyword.toList

def Word.isFlag (w : Word) : Bool :=
  "--".toList.isPrefixOf w.text

-- The stage named behind an image.
def stageOf : List Word → Option String
  | keyword :: name :: _ => if keyword.is "AS" then some (String.ofList name.text) else none
  | _ => none

-- Reads a line from its words.
def FromLine.ofWords? : List Word → Option FromLine
  | [] => none
  | instruction :: rest =>
    if instruction.is "FROM" then
      match rest.dropWhile Word.isFlag with
      | [] => none
      | image :: behind => some ⟨image, stageOf behind⟩
    else
      none

-- The `FROM` instructions of a text.
def fromLines (cs : List Char) : List FromLine :=
  (Text.linesWithOffsets cs).filterMap fun (offset, line) => FromLine.ofWords? (words offset line)

-- The site of an instruction: its image, with the stage as a field.
def FromLine.site (l : FromLine) : Site where
  path := [⟨.element "FROM", l.stage.toList.map ("as", ·)⟩]
  value := String.ofList l.image.text
  span := .ofLength l.image.start (Text.byteLength l.image.text)
  block := false
  patchable := true

-- The sites of a Dockerfile in the order of its lines.
def sites (text : String) : List Site :=
  (fromLines text.toList).map FromLine.site

end Repin.Dockerfile
