import Repin.Span
import Repin.Text.Blank
import Repin.Text.Lines
import Repin.Yaml.Token
/-!
# Where YAML scalars are written

A scalar is read from the place at which its token starts, its marker. From the marker, the style and
the decoded value follows which bytes of the source hold the value, and whether they hold it
literally. Where they do not, an edit cannot be trusted and the scalar is not patchable.
-/
namespace Repin.Yaml

-- Where a scalar is written: the span of its content, whether that takes several lines, and whether
-- the source under the span is the value.
structure ScalarPlace where
  span : Span
  block : Bool
  patchable : Bool
  deriving DecidableEq

namespace ScalarPlace

-- A scalar whose content cannot be found in the source.
def unknown (marker : Nat) : ScalarPlace :=
  ⟨.ofLength marker 0, false, false⟩

-- A scalar on one line, whose content starts at an offset if it stands there literally.
def inline (start : Nat) (value : List Char) (exact : Bool) : ScalarPlace :=
  ⟨.ofLength start (if exact then Text.byteLength value else 0), false, exact⟩

-- A plain scalar starts at its marker.
def plain (source : List Char) (marker : Nat) (value : List Char) : ScalarPlace :=
  inline marker value (Text.slice marker (marker + Text.byteLength value) source = some value)

-- A quoted scalar starts behind its opening quote, and a quote follows its content.
def quoted (source : List Char) (marker : Nat) (value : List Char) (quote : Char) : ScalarPlace :=
  let start := min (marker + 1) (Text.byteLength source)
  let stop := start + Text.byteLength value
  let exact := Text.slice start stop source = some value
    && ((Text.splitAtByte stop source).bind (·.2.head?)) == some quote
  inline start value exact

-- The number of spaces that indent a line.
def indentOf (line : List Char) : Nat :=
  (line.takeWhile (· = ' ')).length

-- The lines of a block scalar, without its indentation, and the byte offset behind the last line
-- that is not blank. Blank lines are read as empty, and a line that is indented less ends the
-- scalar. The lines come with their offsets in the source.
def blockLines (indent : Nat) (stop : Nat) : List (Nat × List Char) → List (List Char) × Nat
  | [] => ([], stop)
  | (offset, line) :: rest =>
    if (Text.trim line).isEmpty then
      let (lines, last) := blockLines indent stop rest
      ([] :: lines, last)
    else if indentOf line < indent then
      ([], stop)
    else
      let (lines, last) :=
        blockLines indent (offset + Text.byteLength (Text.trimEnd line)) rest
      (line.drop indent :: lines, last)

-- Without the empty lines at the end.
def withoutLastEmpty (lines : List (List Char)) : List (List Char) :=
  (lines.reverse.dropWhile (·.isEmpty)).reverse

-- A value without the line feeds at its end.
def withoutLastBreaks (value : List Char) : List Char :=
  (value.reverse.dropWhile (· = '\n')).reverse

-- The indentation of the last line above a block scalar that is not blank.
def outerIndent (above : List Char) : Nat :=
  let lines := (Text.terminatedLines above).map Text.stripTerminator
  match lines.reverse.find? (fun line => !(Text.trim line).isEmpty) with
  | none => 0
  | some line => indentOf line

-- A block scalar is marked at its first content character, so the line of the marker shows the
-- indentation, and the last line above it that is not blank is its header. The span ends with the
-- last line that is not blank.
def blockScalar (source : List Char) (marker : Nat) (value : List Char) (literal : Bool) :
    ScalarPlace :=
  match Text.splitAtByte marker source with
  | none => unknown marker
  | some (before, after) =>
    let margin := Text.lastLine before
    let start := Text.lineStartOf before
    if value.isEmpty || start = 0 || !margin.all (· = ' ') then
      unknown marker
    else
      let indent := margin.length
      -- the line feed that ends the line above is no part of it
      let above := before.take (before.length - margin.length - 1)
      if indent ≤ outerIndent above then
        unknown marker
      else
        let body := (Text.linesWithOffsets (margin ++ after)).map fun (k, line) => (start + k, line)
        let (lines, last) := blockLines indent marker body
        let content := withoutLastEmpty lines
        let bare := withoutLastBreaks value
        let multi := 1 < content.length
        let patchable :=
          if literal then ['\n'].intercalate content = bare
          else !multi && content.head? == some bare
        ⟨.ofLength marker (last - marker), multi, patchable⟩

-- Where a scalar of any style is written.
def find (source : List Char) (marker : Nat) (style : ScalarStyle) (value : List Char) :
    ScalarPlace :=
  match style with
  | .plain => plain source marker value
  | .singleQuoted => quoted source marker value (Char.ofNat 39)
  | .doubleQuoted => quoted source marker value '"'
  | .literal => blockScalar source marker value true
  | .folded => blockScalar source marker value false

end ScalarPlace
end Repin.Yaml
