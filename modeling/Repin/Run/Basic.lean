import Repin.Run.Packages
import Repin.Run.Documents
/-!
# Runs

A run gives each upgrader its turn that the settings do not disable, in order, with the files of the
workspace that belong to it.
-/
namespace Repin.Run

variable {σ : Type}

-- The turn of an upgrader with its files.
def category (plan : RunPlan) (outside : Collaborators σ) (upgrader : Upgrader)
    (files : List String) : RunM σ CategoryReport :=
  match upgrader with
  | .documents rules => reviseFiles plan outside rules files
  | .packages info => packages plan outside info files

-- The turn of an upgrader, unless it is disabled.
def turn (plan : RunPlan) (outside : Collaborators σ) (report : RunReport) (upgrader : Upgrader) :
    RunM σ RunReport := do
  if plan.settings.isDisabled upgrader.info.name then
    return report
  else
    RunM.checkpoint
    let patterns ← RunM.ofExcept (Workspace.readPatterns plan.readers upgrader.info.patterns)
    let files := plan.workspace.matching patterns
    return report.finish (← category plan outside upgrader files)

-- The run of upgraders, whatever order they are given in.
def all (plan : RunPlan) (outside : Collaborators σ) (upgraders : List Upgrader) :
    RunM σ RunReport := do
  let start : RunReport :=
    { channel := plan.channel.render, sdkVersion := plan.channel.sdk.render, dryRun := plan.dryRun }
  let report ← (Upgrader.inOrder upgraders).foldlM (turn plan outside) start
  return { report with diagnostics := (← get).diagnostics }

-- Runs upgraders in a world. The world afterwards is known however the run ends.
def execute (plan : RunPlan) (outside : Collaborators σ) (upgraders : List Upgrader)
    (world : World σ) : Except RunStop RunReport × World σ :=
  match (all plan outside upgraders).run { world } with
  | .ok report s => (.ok report, s.world)
  | .error stop s => (.error stop, s.world)

end Repin.Run
