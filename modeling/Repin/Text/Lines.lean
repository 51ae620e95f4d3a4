import Repin.Text.Bytes
import Repin.Text.Split
/-!
# Lines and positions

A line ends at a line feed; one carriage return before the line feed belongs to the terminator.
Lines and columns count from one, and columns count characters.
-/
namespace Repin.Text

-- A place in a text as an editor shows it.
structure Position where
  line : Nat
  col : Nat
  deriving DecidableEq, Repr

namespace Position

-- The first place of a text.
def start : Position := ⟨1, 1⟩

-- The place behind a character.
def after (p : Position) (c : Char) : Position :=
  if c = '\n' then ⟨p.line + 1, 1⟩ else ⟨p.line, p.col + 1⟩

end Position

-- The place of a byte offset, counted from a place already reached; offsets past the end stop at
-- the end.
def positionFrom (p : Position) : Nat → List Char → Position
  | 0, _ => p
  | _ + 1, [] => p
  | n + 1, c :: cs => positionFrom (p.after c) (n + 1 - c.utf8Size) cs

-- The place of a byte offset.
def position (cs : List Char) (offset : Nat) : Position :=
  positionFrom .start offset cs

-- Byte offsets of the characters of a text, for parsers that count characters.
-- Pure ASCII text needs no table, since the two counts agree.
structure CharOffsets where
  table : Option (Array Nat)
  length : Nat

namespace CharOffsets

-- The byte offset at which each character starts.
def starts (offset : Nat) : List Char → List Nat
  | [] => []
  | c :: cs => offset :: starts (offset + c.utf8Size) cs

def ofText (cs : List Char) : CharOffsets where
  table := if cs.all (·.toNat < 0x80) then none else some (starts 0 cs).toArray
  length := byteLength cs

-- The byte offset of a character, or the length of the text past its last character.
def byteOffset (o : CharOffsets) (index : Nat) : Nat :=
  match o.table with
  | none => min index o.length
  | some table => table.getD index o.length

end CharOffsets

-- The last line of a text: what follows the last line feed.
def lastLine : List Char → List Char
  | [] => []
  | c :: cs => if '\n' ∈ cs then lastLine cs else if c = '\n' then cs else c :: cs

-- The byte offset at which the line around a cut starts, given the text before the cut.
def lineStartOf (before : List Char) : Nat :=
  byteLength before - byteLength (lastLine before)

-- The byte offset at which the line around a cut ends, without its terminator. A carriage return
-- counts as terminator only when it lies behind the cut.
def lineEndOf (before after : List Char) : Nat :=
  byteLength before + byteLength (stripLast '\r' (after.takeWhile (· ≠ '\n')))

-- The start of the line that contains an offset; `none` inside a character.
def lineStart? (cs : List Char) (offset : Nat) : Option Nat :=
  (splitAtByte (min offset (byteLength cs)) cs).map fun (before, _) => lineStartOf before

-- The end of the line that contains an offset; `none` inside a character.
def lineEnd? (cs : List Char) (offset : Nat) : Option Nat :=
  (splitAtByte (min offset (byteLength cs)) cs).map fun (before, after) => lineEndOf before after

-- The lines of a text with their terminators; their concatenation is the text.
def terminatedLines : List Char → List (List Char)
  | [] => []
  | c :: cs =>
    if c = '\n' then
      [c] :: terminatedLines cs
    else
      match terminatedLines cs with
      | [] => [[c]]
      | line :: lines => (c :: line) :: lines

theorem flatten_terminatedLines (cs : List Char) : (terminatedLines cs).flatten = cs := by
  induction cs with
  | nil => rfl
  | cons c cs ih =>
    simp only [terminatedLines]
    split
    · simp [ih]
    · split <;> simp_all

-- A line without its terminator.
def stripTerminator (line : List Char) : List Char :=
  stripLast '\r' (stripLast '\n' line)

-- Each line without its terminator, with the byte offset at which it starts.
def linesFrom (offset : Nat) : List (List Char) → List (Nat × List Char)
  | [] => []
  | line :: lines =>
    (offset, stripTerminator line) :: linesFrom (offset + byteLength line) lines

-- The lines of a text with the byte offset at which each starts.
def linesWithOffsets (cs : List Char) : List (Nat × List Char) :=
  linesFrom 0 (terminatedLines cs)

end Repin.Text

namespace Repin

-- The convention for ending lines.
inductive Newline where
  | lf
  | crlf
  deriving DecidableEq, Repr

namespace Newline

-- The convention of the first line terminator; `lf` for a text without any.
def detect : List Char → Newline
  | '\r' :: '\n' :: _ => .crlf
  | '\n' :: _ => .lf
  | _ :: cs => detect cs
  | [] => .lf

def text : Newline → String
  | .lf => "\n"
  | .crlf => "\r\n"

def name : Newline → String
  | .lf => "lf"
  | .crlf => "crlf"

def ofName? : String → Option Newline
  | "lf" => some .lf
  | "crlf" => some .crlf
  | _ => none

end Newline
end Repin
