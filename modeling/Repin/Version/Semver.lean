import Repin.Text.Split
import Repin.Version.Failure
import Repin.Version.Numeric
/-!
# Registry semantic versions

`major.minor.patch`, then `-` and labels, then `+` and build metadata. Numbers have no leading zeros.
Build metadata is kept for display and has no part in precedence.
-/
namespace Repin

-- Dot-separated, non-empty identifiers of letters, digits and hyphens.
def IsBuildText (text : String) : Prop :=
  (Text.splitAt '.' text.toList).all fun part => !part.isEmpty && part.all isLabelChar

instance (text : String) : Decidable (IsBuildText text) :=
  inferInstanceAs (Decidable (_ = true))

-- What follows the `+` of a version.
structure BuildMetadata where
  text : String
  isBuildText : IsBuildText text
  deriving DecidableEq

structure Semver where
  major : UInt64
  minor : UInt64
  patch : UInt64
  prerelease : List PreLabel
  build : Option BuildMetadata
  deriving DecidableEq

namespace Semver

-- A version without labels and build metadata.
def release (major minor patch : UInt64) : Semver :=
  ⟨major, minor, patch, [], none⟩

def isPrerelease (v : Semver) : Bool :=
  !v.prerelease.isEmpty

def toNumeric (v : Semver) : NumericVersion :=
  ⟨v.major, some v.minor, some v.patch, v.prerelease⟩

-- Reads the build metadata behind the first `+`, and gives the text before it.
def readBuild (cs : List Char) : Except Reason (List Char × Option BuildMetadata) :=
  match Text.splitOnce '+' cs with
  | none => .ok (cs, none)
  | some (rest, build) =>
    let text := String.ofList build
    if h : IsBuildText text then .ok (rest, some ⟨text, h⟩) else .error .malformedBuild

-- Reads one of the three numbers.
def readPart (part : CorePart) : List (List Char) → Except Reason (UInt64 × List (List Char))
  | [] => .error (.missingPart part)
  | piece :: pieces =>
    match Text.readShortest piece with
    | some n => .ok (n, pieces)
    | none => .error (.partNotNumber part (String.ofList piece))

-- Reads a label; unlike in a floating expression, a number has no leading zero.
def readLabel? (cs : List Char) : Option PreLabel :=
  match cs with
  | '0' :: _ :: _ => if cs.all Char.isDigit then none else PreLabel.parse? cs
  | _ => PreLabel.parse? cs

-- Reads the labels behind the first `-`, if there are any.
def readLabels : Option (List Char) → Except Reason (List PreLabel)
  | none => .ok []
  | some cs =>
    match (Text.splitAt '.' cs).mapM readLabel? with
    | some labels => .ok labels
    | none => .error .malformedLabel

-- Reads a version from its characters.
def read (cs : List Char) : Except Reason Semver := do
  let (rest, build) ← readBuild cs
  let (core, labels) :=
    match Text.splitOnce '-' rest with
    | some (core, labels) => (core, some labels)
    | none => (rest, none)
  let (major, pieces) ← readPart .major (Text.splitAt '.' core)
  let (minor, pieces) ← readPart .minor pieces
  let (patch, pieces) ← readPart .patch pieces
  unless pieces.isEmpty do
    throw .tooManyParts
  let prerelease ← readLabels labels
  return { major, minor, patch, prerelease, build }

-- Reads a version.
def parse (text : String) : Except ParseFailure Semver :=
  (read text.toList).mapError fun reason => ⟨text, .registrySemver, reason⟩

-- Writes a version; the inverse of `parse`.
def render (v : Semver) : String :=
  Text.writeNumber v.major ++ "." ++ Text.writeNumber v.minor ++ "." ++ Text.writeNumber v.patch
    ++ (if v.prerelease.isEmpty then "" else
        "-" ++ ".".intercalate (v.prerelease.map PreLabel.render))
    ++ (match v.build with
        | some build => "+" ++ build.text
        | none => "")

end Semver
end Repin
