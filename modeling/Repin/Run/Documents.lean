import Repin.Document.Source
import Repin.Run.State
import Repin.Upgrader.Revision
/-!
# Runs of a category of documents

Each file is a step: it is read, its candidates are judged, and its patch is written back unless the
run only tells what it would do. A file that cannot be read or parsed is told of and left alone, and a
file that cannot be written is an error of its own; neither keeps the other files from their turn.
-/
namespace Repin.Run

variable {σ : Type}

-- The category under way.
structure Progress where
  report : CategoryReport
  -- Whether it was told why candidates are gated.
  explained : Bool := false

-- A diagnostic about a file of a category.
def diagnoseFile (level : Severity) (category file : String) (stage : Stage) (message : String) :
    RunM σ Unit :=
  RunM.diagnose ⟨level, category, some file, stage, message⟩

-- Where the digests of a run come from.
def lookup (outside : Collaborators σ) : Option (Revision.Lookup (RunM σ)) :=
  outside.registry.map RunM.digest

-- Counts a file that was looked at and what became of it.
def Progress.scanned (p : Progress) (outcome : Severity) : Progress :=
  let report := p.report.record outcome
  { p with report := { report with filesScanned := report.filesScanned + 1 } }

def Progress.changed (p : Progress) (change : FileChange) : Progress :=
  { p with report := { p.report with changes := p.report.changes ++ [change] } }

-- Writes the new text of a document.
def writeBack (readers : Readers) (source : SourceDocument) (text : String) :
    RunM σ (Except DocumentError Unit) :=
  RunM.ask fun world =>
    match source.writeBack readers text world.disk with
    | .ok _ disk => (.ok (), { world with disk })
    | .error e disk => (.error e, { world with disk })

-- Carries out the patch of a file, or tells of it in a dry run.
def carryOut (plan : RunPlan) (category file : String) (source : SourceDocument) (patch : PatchSet)
    (judged : Severity) (p : Progress) : RunM σ Progress := do
  let text ← RunM.ofFault (patch.apply source.text)
  let diff ← RunM.ofFault (patch.diff file source.text)
  let change : FileChange :=
    { path := file, edits := patch.materialize file source.text, written := !plan.dryRun, diff }
  if plan.dryRun then
    return (p.changed change).scanned (judged.worse .success)
  else
    match ← writeBack plan.readers source text with
    | .ok _ => return (p.changed change).scanned (judged.worse .success)
    | .error e =>
      diagnoseFile .error category file .write e.message
      return p.scanned .error

-- Judges the candidates of a file and carries out what follows.
def judge (plan : RunPlan) (outside : Collaborators σ) (rules : DocumentRules) (file : String)
    (source : SourceDocument) (candidates : List Candidate) (p : Progress) : RunM σ Progress := do
  let category := rules.info.name
  let verdicts ← candidates.mapM
    (Revision.verdict rules plan.channel plan.policy (lookup outside) source.metadata.newline)
  let notices := Revision.notices plan.channel p.explained (candidates.zip verdicts)
  notices.forM (diagnoseFile .warning category file .decide)
  let p := { p with explained := p.explained || verdicts.contains .gated }
  let judged := Revision.severityOf verdicts
  let patch ← RunM.ofFault (Revision.patchOf verdicts)
  if patch.hasEdits then
    carryOut plan category file source patch judged p
  else
    return p.scanned judged

-- The step of a file.
def reviseFile (plan : RunPlan) (outside : Collaborators σ) (rules : DocumentRules) (p : Progress)
    (file : String) : RunM σ Progress := do
  RunM.checkpoint
  let category := rules.info.name
  let disk := (← get).world.disk
  let read : Except DocumentError (SourceDocument × Except Fault (List Candidate)) := do
    let source ← SourceDocument.read plan.readers disk (plan.workspace.pathOf file)
      (plan.workspace.display file)
    let candidates ← (Revision.candidates plan.readers rules file source.text).mapError .malformed
    return (source, candidates)
  match read with
  | .error e =>
    diagnoseFile .warning category file .parse e.message
    return p.scanned .warning
  | .ok (source, candidates) =>
    judge plan outside rules file source (← RunM.ofFault candidates) p

-- The run of a category of documents over its files.
def reviseFiles (plan : RunPlan) (outside : Collaborators σ) (rules : DocumentRules)
    (files : List String) : RunM σ CategoryReport := do
  let start : CategoryReport := { name := rules.info.name }
  if rules.appliesTo plan.channel then
    let p ← files.foldlM (reviseFile plan outside rules) { report := start }
    let report := p.report
    return if report.changes.isEmpty then report
      else { report with changelog := some (rules.changelog plan.channel) }
  else
    return start

end Repin.Run
