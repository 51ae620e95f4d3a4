import Repin.Error
import Repin.Patch.Basic
/-!
# Reports

A run reports on each category of files: how many files it looked at, which of them it changed, and
how well it went. Whatever a user should know besides is a diagnostic. How well something went is a
severity; of several severities the worst counts.
-/
namespace Repin

inductive Severity where
  | none
  | success
  | warning
  | error
  deriving DecidableEq, Repr

namespace Severity

def name : Severity → String
  | none => "none"
  | success => "success"
  | warning => "warning"
  | error => "error"

def ofName? : String → Option Severity
  | "none" => some none
  | "success" => some success
  | "warning" => some warning
  | "error" => some error
  | _ => Option.none

def rank : Severity → Nat
  | none => 0
  | success => 1
  | warning => 2
  | error => 3

-- The worse of two severities.
def worse (a b : Severity) : Severity :=
  if a.rank ≤ b.rank then b else a

theorem rank_worse (a b : Severity) : (a.worse b).rank = max a.rank b.rank := by
  cases a <;> cases b <;> rfl

@[simp]
theorem none_worse (a : Severity) : none.worse a = a := by
  cases a <;> rfl

@[simp]
theorem worse_none (a : Severity) : a.worse none = a := by
  cases a <;> rfl

end Severity

-- What was being done for a file when something happened.
inductive Stage where
  | discover
  | parse
  | locate
  | decide
  | noChange
  | patch
  | write
  | report
  deriving DecidableEq, Repr

namespace Stage

def all : List Stage :=
  [discover, parse, locate, decide, noChange, patch, write, report]

def name : Stage → String
  | discover => "discover"
  | parse => "parse"
  | locate => "locate"
  | decide => "decide"
  | noChange => "nochange"
  | patch => "patch"
  | write => "write"
  | report => "report"

def ofName? (name : String) : Option Stage :=
  all.find? (·.name == name)

end Stage

structure Diagnostic where
  level : Severity
  category : String
  file : Option String
  stage : Stage
  message : String
  deriving DecidableEq

-- A file that was changed, or would have been changed if the run had been allowed to write.
structure FileChange where
  path : String
  edits : List OutputEdit
  written : Bool
  diff : String
  deriving DecidableEq

-- What became of one category of files.
structure CategoryReport where
  name : String
  outcome : Severity := .none
  filesScanned : Nat := 0
  changes : List FileChange := []
  -- The line of the changelog, if there is something to tell.
  changelog : Option String := none
  deriving DecidableEq

-- Makes the outcome no better than a severity.
def CategoryReport.record (r : CategoryReport) (outcome : Severity) : CategoryReport :=
  { r with outcome := r.outcome.worse outcome }

-- What became of a run. Categories and diagnostics are in the order in which they came.
structure RunReport where
  channel : String
  sdkVersion : String
  dryRun : Bool
  outcome : Severity := .none
  categories : List CategoryReport := []
  diagnostics : List Diagnostic := []
  changelog : List String := []
  deriving DecidableEq

namespace RunReport

def diagnose (r : RunReport) (d : Diagnostic) : RunReport :=
  { r with diagnostics := r.diagnostics ++ [d] }

-- Adds a category to the report of its run.
def finish (r : RunReport) (c : CategoryReport) : RunReport :=
  { r with
    outcome := r.outcome.worse c.outcome
    changelog := r.changelog ++ c.changelog.toList
    categories := r.categories ++ [c] }

-- The categories that ended with an error.
def failedCategories (r : RunReport) : List String :=
  (r.categories.filter (·.outcome == .error)).map (·.name)

-- The changed files in the order in which they were changed.
def changes (r : RunReport) : List FileChange :=
  r.categories.flatMap (·.changes)

-- Refuses a report in which a category ended with an error.
def check (r : RunReport) : Except RunError Unit :=
  match r.failedCategories with
  | [] => .ok ()
  | categories => .error (.upgradeFailed categories)

end RunReport
end Repin
