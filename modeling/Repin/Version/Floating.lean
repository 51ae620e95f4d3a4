import Repin.Text.Blank
import Repin.Text.Bytes
import Repin.Text.Lines
import Repin.Version.Channel
/-!
# Floating expressions

An expression pins an SDK at some precision: a major, `8.x`, `8.0`, `8.0.x`, a feature band such as
`8.0.1xx`, or a full version. `FloatingExpr` has one constructor for each shape, so a change keeps
the shape by construction.

A value has one expression per line, each with an optional comment. `FloatingList` keeps a value as
its lines, cut into what surrounds the expression and the expression, so that `FloatingList.text`
gives the value back as it was written.
-/
namespace Repin

-- The ways to write "any number".
inductive Wildcard where
  | lowerX
  | upperX
  | star
  deriving DecidableEq, Repr

namespace Wildcard

def text : Wildcard → String
  | lowerX => "x"
  | upperX => "X"
  | star => "*"

def read? : List Char → Option Wildcard
  | ['x'] => some .lowerX
  | ['X'] => some .upperX
  | ['*'] => some .star
  | _ => none

end Wildcard

-- The two ways to write "any patch of the band".
inductive BandSuffix where
  | lower
  | upper
  deriving DecidableEq, Repr

namespace BandSuffix

def text : BandSuffix → String
  | lower => "xx"
  | upper => "XX"

def read? : List Char → Option BandSuffix
  | ['x', 'x'] => some .lower
  | ['X', 'X'] => some .upper
  | _ => none

end BandSuffix

-- One version expression, by the shape it is written in.
inductive FloatingExpr where
  | major (major : UInt64)
  | anyMinor (major : UInt64) (wildcard : Wildcard)
  | minor (major minor : UInt64)
  | anyPatch (major minor : UInt64) (wildcard : Wildcard)
  | band (major minor band : UInt64) (suffix : BandSuffix)
  | full (major minor patch : UInt64) (prerelease : List PreLabel)
  deriving DecidableEq

namespace FloatingExpr

-- Why an expression could not be read.
inductive Stop where
  | refused (reason : Reason)
  | fault (fault : Fault)

-- Reads a segment that has to be a number.
def readSegment (cs : List Char) : Except Stop UInt64 :=
  match Text.readNumber cs with
  | some n => .ok n
  | none => .error (.refused (.segmentNotNumber (String.ofList cs)))

-- Reads a third segment that is neither a number nor a wildcard: a band number and a suffix of two
-- bytes. The suffix is cut off by length, so a character of several bytes there is cut apart.
def readBand (cs : List Char) : Except Stop (UInt64 × BandSuffix) :=
  let length := Text.byteLength cs
  if length < 2 then
    .error (.refused .malformedBand)
  else
    match Text.splitAtByte (length - 2) cs with
    | none => .error (.fault .splitCharacter)
    | some (digits, suffix) =>
      match BandSuffix.read? suffix, Text.readNumber digits with
      | some suffix, some n => .ok (n, suffix)
      | _, _ => .error (.refused .malformedBand)

-- Reads the numbers and the wildcard or band of an expression.
def readCore (cs : List Char) : Except Stop FloatingExpr :=
  match Text.splitAt '.' cs with
  | [first] => return .major (← readSegment first)
  | [first, second] => do
    let m ← readSegment first
    match Text.readNumber second, Wildcard.read? second with
    | some n, _ => return .minor m n
    | none, some w => return .anyMinor m w
    | none, none => throw (.refused (.segmentNotNumber (String.ofList second)))
  | [first, second, third] => do
    let m ← readSegment first
    let n ← readSegment second
    match Text.readNumber third, Wildcard.read? third with
    | some p, _ => return .full m n p []
    | none, some w => return .anyPatch m n w
    | none, none =>
      let (b, suffix) ← readBand third
      return .band m n b suffix
  | _ => throw (.refused .segmentCount)

-- Adds the labels behind the first `-`, which only a full version may have.
def addLabels (expr : FloatingExpr) : Option (List Char) → Except Stop FloatingExpr
  | none => .ok expr
  | some labels =>
    match expr with
    | full m n p _ =>
      match (Text.splitAt '.' labels).mapM PreLabel.parse? with
      | some prerelease => .ok (.full m n p prerelease)
      | none => .error (.refused .malformedLabel)
    | _ => .error (.refused .labelsNeedFullVersion)

-- Reads an expression from its characters.
def read (cs : List Char) : Except Stop FloatingExpr := do
  let (core, labels) :=
    match Text.splitOnce '-' cs with
    | some (core, labels) => (core, some labels)
    | none => (cs, none)
  addLabels (← readCore core) labels

-- Reads an expression.
def parse (text : String) : Except ParseStop FloatingExpr :=
  (read text.toList).mapError fun
    | .refused reason => .refused ⟨text, .floatingChannel, reason⟩
    | .fault fault => .fault fault

-- Number of segments written.
def precision : FloatingExpr → Nat
  | major .. => 1
  | anyMinor .. | minor .. => 2
  | anyPatch .. | band .. | full .. => 3

def isFloating : FloatingExpr → Bool
  | anyMinor .. | anyPatch .. | band .. => true
  | major .. | minor .. | full .. => false

def majorNumber : FloatingExpr → UInt64
  | major n | anyMinor n _ | minor n _ | anyPatch n _ _ | band n _ _ _ | full n _ _ _ => n

def minorNumber? : FloatingExpr → Option UInt64
  | major _ | anyMinor _ _ => none
  | minor _ n | anyPatch _ n _ | band _ n _ _ | full _ n _ _ => some n

-- The first patch of a band. Bands are read up to 64 bits; their patches have no more than that
-- either.
def firstPatch (band : UInt64) : Except Fault UInt64 :=
  if band.toNat * 100 < UInt64.size then .ok (band * 100) else .error .overflow

-- The comparable form. A band stands for its first patch.
def toNumeric : FloatingExpr → Except Fault NumericVersion
  | major m | anyMinor m _ => .ok (.release m none none)
  | minor m n | anyPatch m n _ => .ok (.release m (some n) none)
  | band m n b _ => (fun p => .release m (some n) (some p)) <$> firstPatch b
  | full m n p labels => .ok ⟨m, some n, some p, labels⟩

-- Whether the expression reaches a channel, at the precision written: without a minor number the
-- majors decide.
def isAtLeast (e : FloatingExpr) (c : Channel) : Bool :=
  match e.minorNumber? with
  | some n => c.isReachedBy e.majorNumber n
  | none => c.major ≤ e.majorNumber

-- The text of the same shape for a channel.
def upgraded (c : Channel) : FloatingExpr → String
  | major _ => Text.writeNumber c.major
  | anyMinor _ w => Text.writeNumber c.major ++ "." ++ w.text
  | minor _ _ => c.render
  | anyPatch _ _ w => c.render ++ "." ++ w.text
  | band _ _ _ suffix => c.render ++ "." ++ Text.writeNumber c.bandNumber ++ suffix.text
  | full .. => c.sdk.render

end FloatingExpr

-- An expression and the comment behind it, with the blanks before the `#`.
structure FloatingEntry where
  expr : FloatingExpr
  comment : Option String
  deriving DecidableEq

-- One line of a value: all blank or comment, or an expression between its indentation and the
-- rest of the line.
inductive FloatingLine where
  | blank (text : String)
  | entry (indent written rest : String) (entry : FloatingEntry)
  deriving DecidableEq

namespace FloatingLine

def text : FloatingLine → String
  | blank text => text
  | entry indent written rest _ => indent ++ written ++ rest

def entry? : FloatingLine → Option FloatingEntry
  | blank _ => none
  | entry _ _ _ e => some e

-- The indentation of a line that holds an expression.
def indent? : FloatingLine → Option String
  | blank _ => none
  | entry indent _ _ _ => some indent

-- The line with its expression written anew.
def withExpression (written : String) : FloatingLine → String
  | blank text => text
  | entry indent _ rest _ => indent ++ written ++ rest

-- The part of a line before its comment, and the comment from the blanks before the `#` on.
def splitComment (line : List Char) : List Char × Option (List Char) :=
  if '#' ∈ line then
    let body := Text.trimEnd (line.takeWhile (· ≠ '#'))
    (body, some (line.drop body.length))
  else
    (Text.trimEnd line, none)

-- Reads a line without its line feed.
def read (line : List Char) : Except ParseStop FloatingLine :=
  let (body, comment) := splitComment (Text.stripLast '\r' line)
  let written := Text.trimStart body
  if written.isEmpty then
    .ok (.blank (String.ofList line))
  else do
    let expr ← FloatingExpr.parse (String.ofList written)
    return .entry (String.ofList (body.takeWhile Text.isBlank)) (String.ofList written)
      (String.ofList (line.drop body.length)) ⟨expr, comment.map String.ofList⟩

end FloatingLine

-- A value of one or more lines, at least one of which holds an expression.
structure FloatingList where
  lines : List FloatingLine
  deriving DecidableEq

namespace FloatingList

def parse (text : String) : Except ParseStop FloatingList := do
  let lines ← (Text.splitAt '\n' text.toList).mapM FloatingLine.read
  if (lines.filterMap FloatingLine.entry?).isEmpty then
    throw (.refused ⟨text, .floatingChannel, .noExpression⟩)
  return ⟨lines⟩

-- The value as it was written.
def text (l : FloatingList) : String :=
  "\n".intercalate (l.lines.map FloatingLine.text)

def entries (l : FloatingList) : List FloatingEntry :=
  l.lines.filterMap FloatingLine.entry?

def isMultiLine (l : FloatingList) : Bool :=
  1 < l.entries.length

-- The entry with the greater comparable form, the first one of equals.
def higher (best e : FloatingEntry) : Except Fault FloatingEntry := do
  let v ← e.expr.toNumeric
  let w ← best.expr.toNumeric
  return if compare v w = .gt then e else best

-- The first of the entries with the greatest comparable form. A sole entry is compared with none.
def highest? (l : FloatingList) : Except Fault (Option FloatingEntry) :=
  match l.entries with
  | [] => .ok none
  | e :: es => some <$> es.foldlM higher e

def isFloating (l : FloatingList) : Bool :=
  l.entries.any (·.expr.isFloating)

def isAtLeast (l : FloatingList) (c : Channel) : Bool :=
  l.entries.any (·.expr.isAtLeast c)

-- The majors listed, without repetition, in ascending order.
def majors (l : FloatingList) : List UInt64 :=
  ((l.entries.map (·.expr.majorNumber)).eraseDups).mergeSort (· ≤ ·)

-- The value with its only expression replaced.
def replaceOnly (l : FloatingList) (c : Channel) : String :=
  "\n".intercalate <| l.lines.map fun line =>
    match line.entry? with
    | some e => line.withExpression (e.expr.upgraded c)
    | none => line.text

-- The value with a further line in the style of its highest entry, indented like its last entry.
-- Blanks at the end of the value stay at its end.
def appendLine (l : FloatingList) (c : Channel) (newline : Newline) : Except Fault String := do
  match ← l.highest? with
  | none => return l.text
  | some template =>
    let indent := (l.lines.filterMap FloatingLine.indent?).getLast?.getD ""
    let cs := l.text.toList
    return String.ofList (Text.trimEnd cs) ++ newline.text ++ indent ++ template.expr.upgraded c
      ++ String.ofList (Text.trailing cs)

-- The value for a channel: as it is when some entry reaches the channel; else its only entry is
-- replaced, or its list gains a line.
def upgraded (l : FloatingList) (c : Channel) (newline : Newline) : Except Fault String :=
  if l.isAtLeast c then .ok l.text
  else if l.isMultiLine then l.appendLine c newline
  else .ok (l.replaceOnly c)

end FloatingList
end Repin
