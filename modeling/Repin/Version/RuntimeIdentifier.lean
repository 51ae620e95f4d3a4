import Repin.Version.Channel
/-!
# Runtime identifiers

Moving a runtime identifier changes no number: an operating system pinned to a version, such as
`win10` or `ubuntu.22.04`, is replaced by the portable name of its family, and the architecture and
qualifiers behind it stay as written.
-/
namespace Repin

-- How an identifier relates to the portable ones.
inductive Portability where
  | portable
  -- Pinned to a version or distribution; the portable name stands for it.
  | pinned (portableName : String)
  | noEquivalent
  deriving DecidableEq, Repr

structure RuntimeIdentifier where
  raw : String
  -- The name of the operating system in lower case, without its version.
  family : String
  -- The version behind the name, as written: `10`, `.22.04`.
  systemVersion : Option String
  -- What follows the operating system, from the first `-` on.
  rest : String
  portability : Portability
  deriving DecidableEq

namespace RuntimeIdentifier

-- Families that are portable when they carry no version.
def portableFamilies : List String :=
  ["win", "osx", "linux", "freebsd", "illumos", "solaris", "unix", "any"]

-- Families that have no portable name and stay as written.
def standaloneFamilies : List String :=
  ["ios", "iossimulator", "android", "browser", "tvos", "tvossimulator", "maccatalyst", "wasi",
    "tizen"]

-- The portable name of each family that can be pinned.
def pinnedFamilies : List (String × String) :=
  [("win", "win"), ("osx", "osx"), ("alpine", "linux-musl"), ("ubuntu", "linux"),
    ("debian", "linux"), ("rhel", "linux"), ("centos", "linux"), ("fedora", "linux"),
    ("opensuse", "linux"), ("sles", "linux"), ("ol", "linux"), ("linuxmint", "linux"),
    ("freebsd", "freebsd")]

-- The portability of a family with or without a version; `none` for an unknown one.
def classify (family : String) (hasVersion : Bool) : Option Portability :=
  if family ∈ standaloneFamilies then some .noEquivalent
  else if !hasVersion && portableFamilies.contains family then some .portable
  else (pinnedFamilies.lookup family).map .pinned

def isIdentifierChar (c : Char) : Bool :=
  c.isAlphanum || c == '.' || c == '-' || c == '_'

-- Whether two hyphens stand side by side.
def hasDoubleHyphen : List Char → Bool
  | '-' :: '-' :: _ => true
  | _ :: cs => hasDoubleHyphen cs
  | [] => false

-- Reads the version behind the name of a system: numbers separated by dots, after an optional
-- dot.
def readSystemVersion (cs : List Char) : Except Reason (Option String) :=
  if cs.isEmpty then
    .ok none
  else
    let digits := (Text.stripStart? ['.'] cs).getD cs
    if (Text.splitAt '.' digits).all fun part => !part.isEmpty && part.all Char.isDigit then
      .ok (some (String.ofList cs))
    else
      .error .malformedSystemVersion

def read (cs : List Char) : Except Reason RuntimeIdentifier := do
  if cs.isEmpty || !cs.all isIdentifierChar then throw .unexpectedCharacter
  let system := cs.takeWhile (· ≠ '-')
  let rest := cs.dropWhile (· ≠ '-')
  if rest = ['-'] || hasDoubleHyphen rest then throw .emptySegment
  let family := String.ofList (Text.lowercase (system.takeWhile Char.isAlpha))
  if family.isEmpty then throw .missingSystem
  let systemVersion ← readSystemVersion (system.dropWhile Char.isAlpha)
  match classify family systemVersion.isSome with
  | none => throw .unknownSystem
  | some portability =>
    return { raw := String.ofList cs, family, systemVersion, rest := String.ofList rest, portability }

def parse (text : String) : Except ParseFailure RuntimeIdentifier :=
  (read text.toList).mapError fun reason => ⟨text, .runtimeIdentifier, reason⟩

def isPinned (r : RuntimeIdentifier) : Bool :=
  match r.portability with
  | .pinned _ => true
  | .portable | .noEquivalent => false

-- The portable form. The musl qualifier of a name that already says so is not repeated.
def toPortable (r : RuntimeIdentifier) : String :=
  match r.portability with
  | .pinned name =>
    let rest := r.rest.toList
    let rest :=
      if "-musl".toList.isSuffixOf name.toList then
        (Text.stripStart? "-musl".toList rest).getD rest
      else
        rest
    name ++ String.ofList rest
  | .portable | .noEquivalent => r.raw

end RuntimeIdentifier

-- An item of a list of identifiers.
inductive IdentifierItem where
  | identifier (rid : RuntimeIdentifier)
  | other (text : String)
  deriving DecidableEq

namespace IdentifierItem

def read (cs : List Char) : IdentifierItem :=
  match RuntimeIdentifier.parse (String.ofList cs) with
  | .ok rid => identifier rid
  | .error _ => other (String.ofList cs)

def identifier? : IdentifierItem → Option RuntimeIdentifier
  | identifier rid => some rid
  | other _ => none

-- The item in portable form.
def toPortable : IdentifierItem → String
  | identifier rid => rid.toPortable
  | other text => text

end IdentifierItem

-- A list of identifiers separated by semicolons, at least one of which was read.
structure RuntimeIdentifierList where
  text : String
  items : List IdentifierItem
  deriving DecidableEq

namespace RuntimeIdentifierList

def parse (text : String) : Except ParseFailure RuntimeIdentifierList :=
  let pieces := (Text.splitAt ';' text.toList).map Text.trim
  let items := (pieces.filter (!·.isEmpty)).map IdentifierItem.read
  if items.any (·.identifier?.isSome) then
    .ok ⟨text, items⟩
  else
    .error ⟨text, .runtimeIdentifier, .noIdentifier⟩

def identifiers (l : RuntimeIdentifierList) : List RuntimeIdentifier :=
  l.items.filterMap IdentifierItem.identifier?

-- Whether no item is pinned.
def isPortable (l : RuntimeIdentifierList) : Bool :=
  l.identifiers.all (!·.isPinned)

-- The list with every item in portable form and without repetitions, or as it was written when no
-- item is pinned.
def toPortable (l : RuntimeIdentifierList) : String :=
  if l.isPortable then l.text
  else ";".intercalate (l.items.map IdentifierItem.toPortable).eraseDups

end RuntimeIdentifierList
end Repin
