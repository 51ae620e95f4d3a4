import Repin.Span
/-!
# Grammars and refusals

A version value is written in one of six grammars. A text outside its grammar is an ordinary answer,
a `ParseFailure`, and never an error of the run.
-/
namespace Repin

-- The grammar a version value is written in.
inductive TokenKind where
  | frameworkMoniker
  | registrySemver
  | runtimeIdentifier
  | managedRuntime
  | floatingChannel
  | imageTag
  deriving DecidableEq, Repr

namespace TokenKind

-- The name of a grammar in running text.
def description : TokenKind → String
  | frameworkMoniker => "framework moniker"
  | registrySemver => "registry semver"
  | runtimeIdentifier => "runtime identifier"
  | managedRuntime => "managed runtime"
  | floatingChannel => "floating channel expression"
  | imageTag => "image tag"

-- The name of a grammar in configuration and reports.
def name : TokenKind → String
  | frameworkMoniker => "framework-moniker"
  | registrySemver => "registry-semver"
  | runtimeIdentifier => "runtime-identifier"
  | managedRuntime => "managed-runtime"
  | floatingChannel => "floating-channel"
  | imageTag => "image-tag"

def all : List TokenKind :=
  [frameworkMoniker, registrySemver, runtimeIdentifier, managedRuntime, floatingChannel, imageTag]

def ofName? (text : String) : Option TokenKind :=
  all.find? (·.name = text)

end TokenKind

-- The position of a number in `major.minor.patch`.
inductive CorePart where
  | major
  | minor
  | patch
  deriving DecidableEq, Repr

def CorePart.name : CorePart → String
  | major => "major"
  | minor => "minor"
  | patch => "patch"

-- Why a text is outside its grammar.
inductive Reason where
  | malformedBuild
  | missingPart (part : CorePart)
  | partNotNumber (part : CorePart) (text : String)
  | tooManyParts
  | malformedLabel
  | segmentCount
  | segmentNotNumber (text : String)
  | malformedBand
  | labelsNeedFullVersion
  | noExpression
  | malformedNetStandard
  | malformedNetCoreApp
  | unknownFramework
  | emptyPlatform
  | malformedVersion
  | versionNeedsMinor
  | versionBelowFive
  | noMoniker
  | legacyRuntimeShape
  | malformedMajor
  | malformedMinor
  | notDotnetRuntime
  | runtimeNotInteger
  | unexpectedCharacter
  | emptySegment
  | missingSystem
  | malformedSystemVersion
  | unknownSystem
  | noIdentifier
  | notImage
  | emptyDigest
  | untagged
  | emptyRepositoryOrTag
  | versionlessTag
  deriving DecidableEq, Repr

namespace Reason

def message : Reason → String
  | malformedBuild => "malformed build metadata"
  | missingPart part => "missing " ++ part.name ++ " segment"
  | partNotNumber part text => part.name ++ " segment '" ++ text ++ "' is not a number"
  | tooManyParts => "too many segments"
  | malformedLabel => "malformed prerelease label"
  | segmentCount => "expected one to three segments"
  | segmentNotNumber text => "segment '" ++ text ++ "' is not a number"
  | malformedBand => "malformed feature band"
  | labelsNeedFullVersion => "prerelease labels need a full major.minor.patch"
  | noExpression => "no version expression found"
  | malformedNetStandard => "malformed netstandard version"
  | malformedNetCoreApp => "malformed netcoreapp version"
  | unknownFramework => "unknown framework prefix"
  | emptyPlatform => "empty platform suffix"
  | malformedVersion => "malformed version"
  | versionNeedsMinor => "version needs major.minor"
  | versionBelowFive => "netN.M monikers start at net5.0"
  | noMoniker => "no framework moniker found"
  | legacyRuntimeShape => "dotnetcore runtimes are written as dotnetcoreX.Y"
  | malformedMajor => "malformed major"
  | malformedMinor => "malformed minor"
  | notDotnetRuntime => "not a dotnet runtime"
  | runtimeNotInteger => "runtime tag must be an integer"
  | unexpectedCharacter => "unexpected character"
  | emptySegment => "empty segment"
  | missingSystem => "missing operating system"
  | malformedSystemVersion => "malformed operating system version"
  | unknownSystem => "unknown operating system"
  | noIdentifier => "no runtime identifier found"
  | notImage => "not an image reference"
  | emptyDigest => "empty digest"
  | untagged => "image has no tag"
  | emptyRepositoryOrTag => "empty repository or tag"
  | versionlessTag => "tag carries no version"

end Reason

-- A text that is outside the grammar it was read in.
structure ParseFailure where
  text : String
  kind : TokenKind
  reason : Reason
  deriving DecidableEq, Repr

def ParseFailure.message (f : ParseFailure) : String :=
  "'" ++ f.text ++ "' is not a valid " ++ f.kind.description ++ ": " ++ f.reason.message

-- How reading a value can stop: the text is refused, or it was cut inside a character.
inductive ParseStop where
  | refused (failure : ParseFailure)
  | fault (fault : Fault)
  deriving DecidableEq

end Repin
