import Repin.CommandLine.Arguments
import Repin.Run.Request
/-!
# Invocations

The commands of the program: to upgrade a workspace, and to list the upgraders.
-/
namespace Repin.CommandLine

inductive OutputFormat where
  | text
  | json
  | diff
  deriving DecidableEq, Repr

namespace OutputFormat

def names : List String :=
  ["text", "json", "diff"]

def ofName : String → OutputFormat
  | "json" => json
  | "diff" => diff
  | _ => text

end OutputFormat

-- What an upgrade was asked to do, but for its workspace.
structure UpgradeOptions where
  channel : String
  sdkVersion : Option String := none
  releaseKind : Option String := none
  supportPhase : Option String := none
  dryRun : Bool := false
  disable : List String := []
  noPackages : Bool := false
  offline : Bool := false
  format : OutputFormat := .text
  deriving DecidableEq, Repr

inductive Task where
  | upgrade (options : UpgradeOptions)
  | list
  deriving DecidableEq, Repr

structure Invocation where
  -- The workspace, unless it is where the program was started.
  workspace : Option String
  task : Task
  deriving DecidableEq, Repr

-- The options that every command takes.
def sharedRules : List OptionRule :=
  [{ name := "workspace", kind := .path },
   { name := "log-level", kind := .choice ["trace", "debug", "info", "warn", "error"] },
   { name := "log-format", kind := .choice ["text", "json"] }]

-- The options of an upgrade.
def upgradeRules : List OptionRule :=
  [{ name := "channel", kind := .text }, { name := "sdk-version", kind := .text },
   { name := "release-kind", kind := .text }, { name := "support-phase", kind := .text },
   { name := "dry-run", kind := .flag }, { name := "disable", kind := .text, repeatable := true },
   { name := "no-packages", kind := .flag }, { name := "offline", kind := .flag },
   { name := "format", kind := .choice OutputFormat.names }]

-- The options of an upgrade, of which the channel must be given.
def UpgradeOptions.ofGiven (given : Given) : Except Refusal UpgradeOptions :=
  match last? given "channel" with
  | none => .error .misuse
  | some channel =>
    .ok
      { channel
        sdkVersion := last? given "sdk-version"
        releaseKind := last? given "release-kind"
        supportPhase := last? given "support-phase"
        dryRun := has given "dry-run"
        disable := valuesOf given "disable"
        noPackages := has given "no-packages"
        offline := has given "offline"
        format := OutputFormat.ofName ((last? given "format").getD "text") }

-- The task of a command with its arguments, and the shared options among them.
def readTask (command : String) (arguments : List String) : Except Refusal (Task × Given) :=
  match command with
  | "upgrade" => do
    let given ← readAll (upgradeRules ++ sharedRules) arguments
    return (.upgrade (← UpgradeOptions.ofGiven given), given)
  | "list" => do
    return (.list, ← readAll sharedRules arguments)
  | "help" =>
    match arguments with
    | [] | ["upgrade"] | ["list"] | ["help"] => .error .help
    | _ => .error .misuse
  | _ => .error .misuse

-- Reads the arguments of the program. Shared options may stand before and behind the command; the
-- ones behind it count.
def Invocation.read (arguments : List String) : Except Refusal Invocation := do
  let (outer, rest) ← readOptions sharedRules true [] arguments
  match rest with
  | [] => throw .misuse
  | command :: rest =>
    let (task, inner) ← readTask command rest
    return { workspace := (last? inner "workspace").or (last? outer "workspace"), task }

-- Whether errors are put out for programs.
def Task.wantsJson : Task → Bool
  | upgrade options => options.format = .json
  | list => true

-- The request of an upgrade.
def UpgradeOptions.request (o : UpgradeOptions) (root : Location) : UpgradeRequest :=
  { root
    channel := o.channel
    sdkVersion := o.sdkVersion
    releaseKind := o.releaseKind
    supportPhase := o.supportPhase
    dryRun := o.dryRun
    disable := o.disable
    noPackages := o.noPackages
    offline := o.offline }

end Repin.CommandLine
