import Repin.Error
import Repin.Readers
/-!
# Settings

The settings of a workspace are kept in a file at `Settings.path`. Whatever the file leaves out
has a default, and names that it should not know are passed over. A table of settings may also be
written as an array of its values in the order of the fields.
-/
namespace Repin

-- The settings of the tool that upgrades packages.
structure PackageSettings where
  enabled : Bool := true
  tool : String := "dotnet-outdated"
  -- The packages that follow the platform, by the start of their names.
  prefixes : List String :=
    ["Microsoft.AspNetCore.", "Microsoft.EntityFrameworkCore", "Microsoft.Extensions."]
  -- The seconds that the tool may take.
  timeout : UInt64 := 300
  deriving DecidableEq, Repr

-- The settings of registry lookups.
structure RegistrySettings where
  enabled : Bool := true
  -- The seconds that a lookup may take.
  timeout : UInt64 := 10
  deriving DecidableEq, Repr

structure Settings where
  dryRun : Bool := false
  -- Patterns of files that are left out.
  exclude : List String := []
  -- The upgraders that never run.
  disabled : List String := []
  packages : PackageSettings := {}
  registry : RegistrySettings := {}
  deriving DecidableEq, Repr

namespace Settings

-- Where the settings of a workspace are kept.
def path : String := ".netbump/config.toml"

-- Whether an upgrader never runs.
def isDisabled (s : Settings) (upgrader : String) : Bool :=
  s.disabled.contains upgrader

-- Disables an upgrader, unless it is disabled already.
def disable (s : Settings) (upgrader : String) : Settings :=
  if s.isDisabled upgrader then s else { s with disabled := s.disabled ++ [upgrader] }

-- The items of a table of settings: by name, or by their place.
inductive Fields where
  | named (entries : Toml.Entries)
  | placed (items : List Toml.Item)

namespace Fields

def ofItem : Toml.Item → Except String Fields
  | .table _ entries | .inline entries => .ok (named entries)
  | .array items => .ok (placed items)
  | .tables tables => .ok (placed (tables.reverse.map (.table .defined)))
  | .boolean _ | .integer _ | .string _ | .scalar => .error "invalid type: expected a table"

-- Reads one field, or gives its default.
def get (f : Fields) (name : String) (place : Nat) (default : α)
    (read : Toml.Item → Except String α) : Except String α :=
  let item :=
    match f with
    | named entries => entries.lookup name
    | placed items => items[place]?
  match item with
  | none => .ok default
  | some item => read item

end Fields

def readBool : Toml.Item → Except String Bool
  | .boolean b => .ok b
  | _ => .error "invalid type: expected a boolean"

def readString : Toml.Item → Except String String
  | .string s => .ok s
  | _ => .error "invalid type: expected a string"

-- Reads a number that is not negative.
def readNumber : Toml.Item → Except String UInt64
  | .integer n => if 0 ≤ n then .ok n.toNat.toUInt64 else .error "invalid value: a negative number"
  | _ => .error "invalid type: expected a number"

def readStrings : Toml.Item → Except String (List String)
  | .array items => items.mapM readString
  | .tables _ => .error "invalid type: expected a string"
  | _ => .error "invalid type: expected a sequence"

def readPackages (item : Toml.Item) : Except String PackageSettings := do
  let f ← Fields.ofItem item
  let default : PackageSettings := {}
  return {
    enabled := ← f.get "enabled" 0 default.enabled readBool
    tool := ← f.get "tool" 1 default.tool readString
    prefixes := ← f.get "prefixes" 2 default.prefixes readStrings
    timeout := ← f.get "timeout_secs" 3 default.timeout readNumber }

def readRegistry (item : Toml.Item) : Except String RegistrySettings := do
  let f ← Fields.ofItem item
  let default : RegistrySettings := {}
  return {
    enabled := ← f.get "enabled" 0 default.enabled readBool
    timeout := ← f.get "timeout_secs" 1 default.timeout readNumber }

def ofItem (item : Toml.Item) : Except String Settings := do
  let f ← Fields.ofItem item
  return {
    dryRun := ← f.get "dry_run" 0 false readBool
    exclude := ← f.get "exclude" 1 [] readStrings
    disabled := ← f.get "disabled" 2 [] readStrings
    packages := ← f.get "packages" 3 {} readPackages
    registry := ← f.get "registry" 4 {} readRegistry }

-- Reads the settings from the text of their file.
def parse (readers : Readers) (text : String) : Except RunError Settings :=
  let read : Except String Settings := do
    let entries ← readers.toml text
    (Fields.named entries).get "netbump" 0 {} ofItem
  read.mapError fun reason => .config ("failed to parse config file: " ++ reason)

-- The settings in the bytes of a file that could be read.
def ofBytes (readers : Readers) (bytes : ByteArray) : Except RunError Settings :=
  match String.fromUTF8? bytes with
  | none => .error (.config "failed to read config file: stream did not contain valid UTF-8")
  | some text => parse readers text

end Settings
end Repin
