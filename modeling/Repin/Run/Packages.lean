import Repin.Document.Source
import Repin.Run.State
import Repin.Upgrader.Packages
/-!
# Runs of the category of packages

The files of the category are only read. If one of them has a stale reference, an external tool is run
once for the whole workspace.
-/
namespace Repin.Run

variable {σ : Type}

-- A diagnostic about the category of packages.
def diagnosePackages (info : UpgraderInfo) (level : Severity) (file : Option String) (stage : Stage)
    (message : String) : RunM σ Unit :=
  RunM.diagnose ⟨level, info.name, file, stage, message⟩

-- Adds the stale references of a file.
def scanProject (plan : RunPlan) (info : UpgraderInfo)
    (found : CategoryReport × List StaleReference) (file : String) :
    RunM σ (CategoryReport × List StaleReference) := do
  RunM.checkpoint
  let (report, stale) := found
  let report := { report with filesScanned := report.filesScanned + 1 }
  let disk := (← get).world.disk
  let read : Except DocumentError (List StaleReference) := do
    let source ← SourceDocument.read plan.readers disk (plan.workspace.pathOf file)
      (plan.workspace.display file)
    (StaleReference.find plan.readers file source.text plan.settings.packages.prefixes
      plan.channel.major).mapError .malformed
  match read with
  | .ok more => return (report, stale ++ more)
  | .error e =>
    diagnosePackages info .warning (some file) .parse e.message
    return (report.record .warning, stale)

-- The last line of a text, without blanks around it.
def lastLine (text : String) : String :=
  match (Text.terminatedLines text.toList).getLast? with
  | none => ""
  | some line => String.ofList (Text.trim line)

-- What to tell of a tool that did not succeed.
def toolFailure (tool : String) (output : ToolOutput) : String :=
  let detail := lastLine output.stderr
  match output.exitCode with
  | some code => tool ++ " exited with " ++ toString code ++ ": " ++ detail
  | none => tool ++ " did not finish: " ++ detail

-- Runs the tool for stale references.
def upgradePackages (plan : RunPlan) (outside : Collaborators σ) (info : UpgraderInfo)
    (report : CategoryReport) (stale : List StaleReference) : RunM σ CategoryReport := do
  let settings := plan.settings.packages
  let arguments :=
    StaleReference.toolArguments (StaleReference.usedPrefixes settings.prefixes stale)
  let count := toString stale.length
  if plan.dryRun then
    diagnosePackages info .none none .patch
      ("would run " ++ settings.tool ++ " " ++ " ".intercalate arguments ++ " for " ++ count
        ++ " package references")
    return report
  else
    RunM.checkpoint
    let call : ToolCall :=
      { program := settings.tool, arguments, directory := plan.workspace.root,
        timeout := settings.timeout }
    match ← RunM.ask (outside.runTool call) with
    | .error e =>
      diagnosePackages info .warning none .patch e.message
      return report.record .warning
    | .ok output =>
      if output.isSuccess then
        let line := "Updated " ++ count ++ " package references to .NET " ++ plan.channel.render
          ++ " packages with " ++ settings.tool
        return { report.record .success with changelog := some line }
      else
        diagnosePackages info .warning none .patch (toolFailure settings.tool output)
        return report.record .warning

-- The run of the category of packages over its files.
def packages (plan : RunPlan) (outside : Collaborators σ) (info : UpgraderInfo)
    (files : List String) : RunM σ CategoryReport := do
  let start : CategoryReport := { name := info.name }
  if plan.settings.packages.enabled then
    let (report, stale) ← files.foldlM (scanProject plan info) (start, [])
    if stale.isEmpty then return report else upgradePackages plan outside info report stale
  else
    return start

end Repin.Run
