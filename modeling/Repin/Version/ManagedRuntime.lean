import Repin.Version.Channel
/-!
# Managed runtimes

Names of serverless runtimes: `dotnet8`, and the legacy form `dotnetcore3.1`. Moving one always
writes the first form.
-/
namespace Repin

structure ManagedRuntime where
  major : UInt64
  -- Only the legacy form has one.
  minor : Option UInt64
  deriving DecidableEq, Repr

namespace ManagedRuntime

-- Reads what follows `dotnetcore`.
def readLegacy (cs : List Char) : Except Reason ManagedRuntime :=
  match Text.splitOnce '.' cs with
  | none => .error .legacyRuntimeShape
  | some (before, after) =>
    match Text.readNumber before with
    | none => .error .malformedMajor
    | some major =>
      match Text.readNumber after with
      | none => .error .malformedMinor
      | some minor => .ok ⟨major, some minor⟩

def read (cs : List Char) : Except Reason ManagedRuntime :=
  match Text.stripStart? "dotnetcore".toList cs with
  | some rest => readLegacy rest
  | none =>
    match Text.stripStart? "dotnet".toList cs with
    | none => .error .notDotnetRuntime
    | some rest =>
      match Text.readNumber rest with
      | none => .error .runtimeNotInteger
      | some major => .ok ⟨major, none⟩

def parse (text : String) : Except ParseFailure ManagedRuntime :=
  (read text.toList).mapError fun reason => ⟨text, .managedRuntime, reason⟩

def toNumeric (r : ManagedRuntime) : NumericVersion :=
  .release r.major r.minor none

def isAtLeast (r : ManagedRuntime) (c : Channel) : Bool :=
  c.major ≤ r.major

-- The runtime of a channel.
def forChannel (c : Channel) : String :=
  "dotnet" ++ Text.writeNumber c.major

end ManagedRuntime
end Repin
