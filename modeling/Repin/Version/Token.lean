import Repin.Version.Floating
import Repin.Version.Image
import Repin.Version.ManagedRuntime
import Repin.Version.Moniker
import Repin.Version.RuntimeIdentifier
/-!
# Version tokens

A token is a value read in one of the six grammars, together with the text it was read from. Three
functions are all that the rest of the library uses: `Token.parse`, `Token.isAtLeast` and
`Token.upgraded`.
-/
namespace Repin

-- A value of one of the grammars.
inductive TokenValue where
  | monikers (list : MonikerList)
  | semver (version : Semver)
  | identifiers (list : RuntimeIdentifierList)
  | runtime (runtime : ManagedRuntime)
  | floating (list : FloatingList)
  | image (reference : ImageReference)
  deriving DecidableEq

def TokenValue.kind : TokenValue → TokenKind
  | monikers _ => .frameworkMoniker
  | semver _ => .registrySemver
  | identifiers _ => .runtimeIdentifier
  | runtime _ => .managedRuntime
  | floating _ => .floatingChannel
  | image _ => .imageTag

structure Token where
  raw : String
  value : TokenValue
  deriving DecidableEq

namespace Token

def kind (t : Token) : TokenKind :=
  t.value.kind

-- Reads a text in a grammar.
def parseValue (text : String) : TokenKind → Except ParseStop TokenValue
  | .frameworkMoniker => (.monikers <$> MonikerList.parse text).mapError .refused
  | .registrySemver => (.semver <$> Semver.parse text).mapError .refused
  | .runtimeIdentifier => (.identifiers <$> RuntimeIdentifierList.parse text).mapError .refused
  | .managedRuntime => (.runtime <$> ManagedRuntime.parse text).mapError .refused
  | .floatingChannel => .floating <$> FloatingList.parse text
  | .imageTag => (.image <$> ImageReference.parse text).mapError .refused

def parse (text : String) (kind : TokenKind) : Except ParseStop Token :=
  (fun value => ⟨text, value⟩) <$> parseValue text kind

-- The version that stands for the token in comparisons: the highest of a list, the lowest run of an
-- image. Runtime identifiers have none.
def numeric? (t : Token) : Except Fault (Option NumericVersion) :=
  match t.value with
  | .monikers list => .ok (list.highest?.map (·.version))
  | .semver version => .ok (some version.toNumeric)
  | .identifiers _ => .ok none
  | .runtime runtime => .ok (some runtime.toNumeric)
  | .floating list => do (← list.highest?).mapM (·.expr.toNumeric)
  | .image reference => .ok reference.lowest?

-- Whether the token has a wildcard or a feature band.
def isFloating (t : Token) : Bool :=
  match t.value with
  | .floating list => list.isFloating
  | .monikers _ | .semver _ | .identifiers _ | .runtime _ | .image _ => false

-- Whether the token already satisfies a channel, so that no edit may touch it.
def isAtLeast (t : Token) (c : Channel) : Bool :=
  match t.value with
  | .monikers list => list.isAtLeast c
  | .semver version => compare version.toNumeric c.sdk.toNumeric ≠ .lt
  | .identifiers list => list.isPortable
  | .runtime runtime => runtime.isAtLeast c
  | .floating list => list.isAtLeast c
  | .image reference => reference.isAtLeast c

-- The text of the token for a channel, in the style of the token. The line convention is used where
-- a list gains a line.
def upgraded (t : Token) (c : Channel) (newline : Newline) : Except Fault String :=
  match t.value with
  | .monikers list => .ok (list.upgraded c)
  | .semver _ => .ok c.sdk.render
  | .identifiers list => .ok list.toPortable
  | .runtime _ => .ok (ManagedRuntime.forChannel c)
  | .floating list => list.upgraded c newline
  | .image reference => .ok (reference.upgraded c)

end Token
end Repin
