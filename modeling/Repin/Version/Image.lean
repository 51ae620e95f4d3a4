import Repin.Text.Blank
import Repin.Text.Bytes
import Repin.Version.Channel
/-!
# Container images

`repository:tag`, then an optional `@digest`. A tag is text with version runs in it: a run fills the
space between two separators, `-` or `_`, or an end of the tag. `ImageReference` keeps a tag as its
parts, so that changing runs leaves everything else as it was written.
-/
namespace Repin

-- The numbers of a version run.
inductive RunVersion where
  | major (m : UInt64)
  | minor (m n : UInt64)
  | patch (m n p : UInt64)
  deriving DecidableEq, Repr

namespace RunVersion

def ofNumbers? : List UInt64 → Option RunVersion
  | [m] => some (major m)
  | [m, n] => some (minor m n)
  | [m, n, p] => some (patch m n p)
  | _ => none

def numbers : RunVersion → List UInt64
  | major m => [m]
  | minor m n => [m, n]
  | patch m n p => [m, n, p]

-- Reads one to three numbers separated by dots.
def read? (cs : List Char) : Option RunVersion := do
  ofNumbers? (← (Text.splitAt '.' cs).mapM Text.readNumber)

def toNumeric : RunVersion → NumericVersion
  | major m => .release m none none
  | minor m n => .release m (some n) none
  | patch m n p => .release m (some n) (some p)

def isAtLeast (c : Channel) : RunVersion → Bool
  | major m => c.major ≤ m
  | minor m n | patch m n _ => c.isReachedBy m n

-- The text of the channel at the same number of segments.
def upgraded (c : Channel) : RunVersion → String
  | major _ => Text.writeNumber c.major
  | minor _ _ => c.render
  | patch _ _ _ => c.sdk.render

end RunVersion

-- A part of a tag.
inductive TagPart where
  | separator (c : Char)
  | run (written : String) (version : RunVersion)
  | other (text : String)
  deriving DecidableEq

namespace TagPart

def isSeparator (c : Char) : Bool :=
  c == '-' || c == '_'

def text : TagPart → String
  | separator c => c.toString
  | run written _ => written
  | other text => text

def version? : TagPart → Option RunVersion
  | run _ version => some version
  | separator _ | other _ => none

-- The part that fills the space between two separators; empty space has none.
def ofPiece (piece : List Char) : List TagPart :=
  match piece, RunVersion.read? piece with
  | [], _ => []
  | _, some version => [run (String.ofList piece) version]
  | _, none => [other (String.ofList piece)]

-- The parts of a tag, of which `piece` has already been passed, in reverse.
def readFrom (piece : List Char) : List Char → List TagPart
  | [] => ofPiece piece.reverse
  | c :: cs =>
    if isSeparator c then
      ofPiece piece.reverse ++ separator c :: readFrom [] cs
    else
      readFrom (c :: piece) cs

-- The parts of a tag.
def read (cs : List Char) : List TagPart :=
  readFrom [] cs

end TagPart

structure ImageReference where
  -- The registry host included.
  repository : String
  tag : List TagPart
  -- The pinned digest without its `@`.
  digest : Option String
  deriving DecidableEq

-- A version run and where it lies in its reference.
structure LocatedRun where
  start : Nat
  stop : Nat
  version : RunVersion
  deriving DecidableEq, Repr

namespace ImageReference

-- The end of a text, from behind the last occurrence of a character on.
def afterLast (separator : Char) (cs : List Char) : List Char :=
  (cs.reverse.takeWhile (· ≠ separator)).reverse

-- Cuts the digest off, at the first `@`.
def readDigest (cs : List Char) : Except Reason (List Char × Option String) :=
  match Text.splitOnce '@' cs with
  | none => .ok (cs, none)
  | some (_, []) => .error .emptyDigest
  | some (name, digest) => .ok (name, some (String.ofList digest))

-- Cuts a name at its last colon, which has to lie behind its last slash.
def readName (cs : List Char) : Except Reason (List Char × List Char) :=
  let tag := afterLast ':' cs
  if ':' ∉ cs ∨ '/' ∈ tag then
    .error .untagged
  else
    let repository := cs.take (cs.length - tag.length - 1)
    if repository.isEmpty ∨ tag.isEmpty then .error .emptyRepositoryOrTag
    else .ok (repository, tag)

def read (cs : List Char) : Except Reason ImageReference := do
  if cs.isEmpty || cs.any Text.isBlank then throw .notImage
  let (name, digest) ← readDigest cs
  let (repository, tag) ← readName name
  let tag := TagPart.read tag
  if (tag.filterMap TagPart.version?).isEmpty then throw .versionlessTag
  return { repository := String.ofList repository, tag, digest }

def parse (text : String) : Except ParseFailure ImageReference :=
  (read text.toList).mapError fun reason => ⟨text, .imageTag, reason⟩

def tagText (i : ImageReference) : String :=
  String.join (i.tag.map TagPart.text)

-- The reference with the given text for its tag.
def withTag (i : ImageReference) (tag : String) : String :=
  i.repository ++ ":" ++ tag ++ (match i.digest with
    | some digest => "@" ++ digest
    | none => "")

-- The reference as it was written.
def text (i : ImageReference) : String :=
  i.withTag i.tagText

def versions (i : ImageReference) : List RunVersion :=
  i.tag.filterMap TagPart.version?

-- The runs of some parts, of which the first starts at an offset.
def runsFrom (offset : Nat) : List TagPart → List LocatedRun
  | [] => []
  | part :: parts =>
    let stop := offset + Text.byteLength part.text.toList
    match part.version? with
    | some version => ⟨offset, stop, version⟩ :: runsFrom stop parts
    | none => runsFrom stop parts

-- The runs with the bytes they fill in the reference.
def runs (i : ImageReference) : List LocatedRun :=
  runsFrom (Text.byteLength i.repository.toList + 1) i.tag

-- Images of an SDK are the only ones whose full versions a channel can supply.
def isSdkImage (i : ImageReference) : Bool :=
  afterLast '/' i.repository.toList = "sdk".toList

-- Whether a run may be moved: it is no full version, or the image is one of an SDK.
def moves (i : ImageReference) : RunVersion → Bool
  | .major _ | .minor _ _ => true
  | .patch _ _ _ => i.isSdkImage

-- The lowest of the runs that move.
def lowest? (i : ImageReference) : Option NumericVersion :=
  firstLowest? ((i.versions.filter i.moves).map RunVersion.toNumeric)

def isAtLeast (i : ImageReference) (c : Channel) : Bool :=
  (i.versions.filter i.moves).all (RunVersion.isAtLeast c)

-- A part for a channel: a run that moves and lies below is replaced, all else stays.
def upgradedPart (i : ImageReference) (c : Channel) (part : TagPart) : String :=
  match part.version? with
  | some version =>
    if i.moves version && !version.isAtLeast c then version.upgraded c else part.text
  | none => part.text

-- The tag for a channel.
def upgradedTag (i : ImageReference) (c : Channel) : String :=
  String.join (i.tag.map (i.upgradedPart c))

-- The reference for a channel; its digest stays.
def upgraded (i : ImageReference) (c : Channel) : String :=
  i.withTag (i.upgradedTag c)

-- A reference with another digest behind its first `@`; one without a digest stays as it is.
def replaceDigest (text digest : String) : String :=
  match Text.splitOnce '@' text.toList with
  | some (name, _) => String.ofList name ++ "@" ++ digest
  | none => text

end ImageReference
end Repin
