import Repin.Report.Basic
/-!
# Reports for readers

The summary has a line for each category, then the changelog, then the diagnostics. The difference of
a run is the difference of all its files.
-/
namespace Repin

-- What the program is called in its output.
def programName : String :=
  "netbump"

-- A text that is filled up with blanks to a number of characters.
def padded (width : Nat) (s : String) : String :=
  s ++ String.ofList (List.replicate (width - s.length) ' ')

def Diagnostic.render (d : Diagnostic) : String :=
  let file :=
    match d.file with
    | some file => " " ++ file
    | none => ""
  d.level.name ++ " [" ++ d.category ++ "]" ++ file ++ ": " ++ d.message

def CategoryReport.summary (c : CategoryReport) : String :=
  "  " ++ padded 20 c.name ++ " " ++ padded 8 c.outcome.name ++ " " ++ toString c.filesScanned
    ++ " scanned, " ++ toString c.changes.length ++ " changed\n"

namespace RunReport

-- A part of the summary that is left out if it has no lines.
def section? (title start : String) (lines : List String) : String :=
  match lines with
  | [] => ""
  | lines => "\n" ++ title ++ ":\n" ++ String.join (lines.map fun line => start ++ line ++ "\n")

def renderText (r : RunReport) : String :=
  let verb := if r.dryRun then "would upgrade" else "upgraded"
  programName ++ " " ++ verb ++ " to " ++ r.channel ++ " (SDK " ++ r.sdkVersion ++ "): "
    ++ r.outcome.name ++ "\n"
    ++ String.join (r.categories.map (·.summary))
    ++ section? "Changelog" "  - " r.changelog
    ++ section? "Diagnostics" "  " (r.diagnostics.map (·.render))

def renderDiff (r : RunReport) : String :=
  String.join (r.changes.map (·.diff))

end RunReport
end Repin
