import Repin.CommandLine.Invocation
import Repin.Report.Json
import Repin.Report.Text
import Repin.Tool.System
/-!
# Executing invocations

What an invocation puts out and with which exit code it ends. A report is put out even if a category in
it ended with an error.
-/
namespace Repin.CommandLine

structure Output where
  stdout : String := ""
  stderr : String := ""
  exitCode : Nat := 0
  deriving DecidableEq, Repr

-- The version of the program.
def version : String := "0.1.0"

-- The exit code of a run that a fault ended.
def faultCode : Nat := 101

namespace Output

-- What is put out if there is nothing to be done.
def ofRefusal : Refusal → Output
  | .help => {}
  | .version => { stdout := programName ++ " " ++ version ++ "\n" }
  | .misuse => { exitCode := ExitCause.invalidArguments.code }

-- Adds an error, behind what was put out before.
def fail (o : Output) (json : Bool) (e : RunError) : Output :=
  if json then { o with stdout := o.stdout ++ e.toValue.render, exitCode := e.code }
  else { o with stderr := o.stderr ++ programName ++ ": " ++ e.message ++ "\n", exitCode := e.code }

end Output

-- A report in a format.
def OutputFormat.render (format : OutputFormat) (startedAt : String) (r : RunReport) : String :=
  match format with
  | text => r.renderText
  | json => (r.toValue startedAt).render
  | diff => r.renderDiff

-- What the program runs with: tools run as a plain system runs them on the disk, and no registry is
-- within reach.
def surroundings : Collaborators Unit where
  runTool := Tool.run
  registry := some fun image tag => pure (.error (.registry image tag "no connection"))

variable {σ : Type}

-- Runs an upgrade.
def upgrade (readers : Readers) (outside : Collaborators σ) (root : Location) (startedAt : String)
    (options : UpgradeOptions) (world : World σ) : Output × World σ :=
  let request := options.request root
  let json := options.format = .json
  match request.settings readers world.disk with
  | .error e => (({} : Output).fail json e, world)
  | .ok settings =>
    match request.run readers settings outside world with
    | (.error (.failed e), world) => (({} : Output).fail json e, world)
    | (.error (.fault _), world) => ({ exitCode := faultCode }, world)
    | (.ok report, world) =>
      let output : Output := { stdout := options.format.render startedAt report }
      match report.check with
      | .ok _ => (output, world)
      | .error e => (output.fail json e, world)

-- Lists the upgraders.
def list (readers : Readers) (disk : Disk) (root : Location) : Output :=
  match Settings.load readers disk root with
  | .ok settings => { stdout := settings.listing.render }
  | .error e => ({} : Output).fail true e

-- Executes an invocation.
def Invocation.execute (i : Invocation) (readers : Readers) (outside : Collaborators σ)
    (locate : Option String → Location) (startedAt : String) (world : World σ) : Output × World σ :=
  let root := locate i.workspace
  match i.task with
  | .upgrade options => upgrade readers outside root startedAt options world
  | .list => (list readers world.disk root, world)

-- Runs the program with its arguments. `locate` tells where a workspace is, and what stands for it
-- if none is named.
def run (readers : Readers) (outside : Collaborators σ) (locate : Option String → Location)
    (startedAt : String) (arguments : List String) (world : World σ) : Output × World σ :=
  match Invocation.read arguments with
  | .error refusal => (Output.ofRefusal refusal, world)
  | .ok invocation => invocation.execute readers outside locate startedAt world

end Repin.CommandLine
