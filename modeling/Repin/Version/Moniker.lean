import Repin.Version.Channel
/-!
# Target framework monikers

A moniker names a framework family and a version: `net8.0`, `net6.0-windows`, `netcoreapp3.1`,
`netstandard2.0`, `net472`. Only the first two families are ever moved.

A value is a list separated by semicolons. `MonikerList` keeps every piece with the blanks around it,
so that `MonikerList.text` gives the value back as it was written. What is no moniker, such as a
property reference, stays in the list untouched.
-/
namespace Repin

-- The family of a moniker.
inductive FrameworkFamily where
  -- `net5.0` and later, with an optional platform
  | net
  -- `netcoreapp1.0` to `netcoreapp3.1`
  | netCoreApp
  -- `netstandard2.0`; never moved
  | netStandard
  -- `net48`, `net472`; never moved
  | netFramework
  deriving DecidableEq, Repr

def FrameworkFamily.name : FrameworkFamily → String
  | net => "net"
  | netCoreApp => "netcoreapp"
  | netStandard => "netstandard"
  | netFramework => "netframework"

structure Moniker where
  family : FrameworkFamily
  version : NumericVersion
  -- The text behind the first `-`, in the case it was written in.
  platform : Option String
  deriving DecidableEq

namespace Moniker

-- Reads one to three numbers separated by dots.
def readDotted (cs : List Char) : Option NumericVersion := do
  let numbers ← (Text.splitAt '.' cs).mapM Text.readNumber
  match numbers with
  | [major] => some (.release major none none)
  | [major, minor] => some (.release major (some minor) none)
  | [major, minor, patch] => some (.release major (some minor) (some patch))
  | _ => none

-- Reads the digits of a classic framework: two or three of them, the first from 1 to 4, each a
-- number of its own.
def readClassic (cs : List Char) : Option NumericVersion :=
  let digit (c : Char) : UInt64 := (c.toNat - 48).toUInt64
  match cs with
  | [a, b] =>
    if '1' ≤ a ∧ a ≤ '4' ∧ b.isDigit then some (.release (digit a) (some (digit b)) none) else none
  | [a, b, c] =>
    if '1' ≤ a ∧ a ≤ '4' ∧ b.isDigit ∧ c.isDigit then
      some (.release (digit a) (some (digit b)) (some (digit c)))
    else
      none
  | _ => none

-- Reads what follows `net` in the families that start with it alone.
def readNet (cs : List Char) : Except Reason Moniker :=
  match readClassic cs with
  | some version => .ok ⟨.netFramework, version, none⟩
  | none => do
    let (number, platform) ←
      match Text.splitOnce '-' cs with
      | none => pure (cs, none)
      | some (_, []) => throw .emptyPlatform
      | some (number, platform) => pure (number, some (String.ofList platform))
    match readDotted number with
    | none => throw .malformedVersion
    | some version =>
      if version.minor.isNone then throw .versionNeedsMinor
      if version.major < 5 then throw .versionBelowFive
      return ⟨.net, version, platform⟩

-- Reads a moniker from its characters, in any case.
def read (cs : List Char) : Except Reason Moniker :=
  let lower := Text.lowercase cs
  match Text.stripStart? "netstandard".toList lower with
  | some [] => .ok ⟨.netStandard, .release 0 none none, none⟩
  | some rest =>
    match readDotted rest with
    | some version => .ok ⟨.netStandard, version, none⟩
    | none => .error .malformedNetStandard
  | none =>
    match Text.stripStart? "netcoreapp".toList lower with
    | some rest =>
      match readDotted rest with
      | some version => .ok ⟨.netCoreApp, version, none⟩
      | none => .error .malformedNetCoreApp
    | none =>
      match Text.stripStart? "net".toList lower with
      | some _ => readNet (cs.drop 3)
      | none => .error .unknownFramework

def parse (text : String) : Except ParseFailure Moniker :=
  (read text.toList).mapError fun reason => ⟨text, .frameworkMoniker, reason⟩

def isUpgradable (m : Moniker) : Bool :=
  m.family = .net || m.family = .netCoreApp

-- The moniker of a channel for a platform.
def forChannel (c : Channel) (platform : Option String) : String :=
  "net" ++ c.render ++ (match platform with
    | some platform => "-" ++ platform
    | none => "")

end Moniker

-- One piece of a list: what stands between two semicolons, with the blanks around it.
structure MonikerPiece where
  lead : String
  item : String
  trail : String
  -- The moniker that the item is, if it is one.
  moniker? : Option Moniker
  deriving DecidableEq

namespace MonikerPiece

def read (cs : List Char) : MonikerPiece :=
  let body := Text.trimStart cs
  let item := String.ofList (Text.trimEnd body)
  { lead := String.ofList (cs.takeWhile Text.isBlank)
    item
    trail := String.ofList (Text.trailing body)
    moniker? := (Moniker.parse item).toOption }

def text (p : MonikerPiece) : String :=
  p.lead ++ p.item ++ p.trail

end MonikerPiece

-- A list of monikers, at least one of which was read.
structure MonikerList where
  pieces : List MonikerPiece
  deriving DecidableEq

namespace MonikerList

def parse (text : String) : Except ParseFailure MonikerList :=
  let pieces := (Text.splitAt ';' text.toList).map MonikerPiece.read
  if pieces.any (·.moniker?.isSome) then
    .ok ⟨pieces⟩
  else
    .error ⟨text, .frameworkMoniker, .noMoniker⟩

-- The value as it was written.
def text (l : MonikerList) : String :=
  ";".intercalate (l.pieces.map MonikerPiece.text)

-- The pieces that are not empty.
def items (l : MonikerList) : List MonikerPiece :=
  l.pieces.filter (·.item ≠ "")

def monikers (l : MonikerList) : List Moniker :=
  l.pieces.filterMap (·.moniker?)

-- The first of the greatest monikers among those that move.
def highest? (l : MonikerList) : Option Moniker :=
  firstHighest? (·.version) (l.monikers.filter (·.isUpgradable))

-- Whether nothing in the list needs the channel: its highest moniker reaches it, or none moves.
def isAtLeast (l : MonikerList) (c : Channel) : Bool :=
  match l.highest? with
  | some m => c.isReachedBy m.version.major (m.version.minor.getD 0)
  | none => true

-- The list with its only moniker replaced by the channel's, on the same platform.
def replaceOnly (l : MonikerList) (c : Channel) : String :=
  ";".intercalate <| l.pieces.map fun p =>
    match p.moniker? with
    | some m => p.lead ++ Moniker.forChannel c m.platform ++ p.trail
    | none => p.text

-- The list with the channel's moniker behind it, on the platform of the highest moniker. A
-- semicolon at the end is used, and blanks at the end stay there.
def append (l : MonikerList) (c : Channel) : String :=
  let cs := l.text.toList
  let body := Text.trimEnd cs
  let separator := if body.getLast? = some ';' then "" else ";"
  String.ofList body ++ separator ++ Moniker.forChannel c (l.highest?.bind (·.platform))
    ++ String.ofList (Text.trailing cs)

-- The value for a channel: as it is when it needs nothing; else a sole moniker is replaced, and a
-- list gains one.
def upgraded (l : MonikerList) (c : Channel) : String :=
  if l.isAtLeast c then l.text
  else if l.items.length = 1 then l.replaceOnly c
  else l.append c

end MonikerList
end Repin
