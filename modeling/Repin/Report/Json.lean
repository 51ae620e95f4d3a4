import Repin.Json.Value
import Repin.Report.Basic
import Repin.Settings
import Repin.Upgrader.Documents
/-!
# Reports for programs

The shapes of reports, errors and settings as JSON. What is absent or empty by its nature, such as the
file of a diagnostic, is left out.
-/
namespace Repin

open Json (Value)

-- A member that is left out if it has no value.
def optionalMember (name : String) (value : Option String) : List (String × Value) :=
  match value with
  | some s => [(name, .string s)]
  | none => []

def Span.toValue (s : Span) : Value :=
  .object [("start", .number s.start), ("end", .number s.stop)]

def OutputEdit.toValue (e : OutputEdit) : Value :=
  .object
    [("file", .string e.file), ("span", e.span.toValue), ("old_text", .string e.oldText),
     ("new_text", .string e.newText), ("line", .number e.line), ("col", .number e.col)]

def FileChange.toValue (c : FileChange) : Value :=
  .object <|
    [("path", .string c.path), ("edits", .array (c.edits.map OutputEdit.toValue)),
     ("written", .bool c.written)]
      ++ optionalMember "diff" (if c.diff.isEmpty then none else some c.diff)

def Diagnostic.toValue (d : Diagnostic) : Value :=
  .object <|
    [("level", .string d.level.name), ("category", .string d.category)]
      ++ optionalMember "file" d.file
      ++ [("stage", .string d.stage.name), ("message", .string d.message)]

def CategoryReport.toValue (c : CategoryReport) : Value :=
  .object <|
    [("name", .string c.name), ("outcome", .string c.outcome.name),
     ("files_scanned", .number c.filesScanned),
     ("changes", .array (c.changes.map FileChange.toValue))]
      ++ optionalMember "changelog" c.changelog

-- A report of a run that started at a time.
def RunReport.toValue (r : RunReport) (startedAt : String) : Value :=
  .object
    [("channel", .string r.channel), ("sdk_version", .string r.sdkVersion),
     ("dry_run", .bool r.dryRun), ("started_at", .string startedAt),
     ("outcome", .string r.outcome.name),
     ("categories", .array (r.categories.map CategoryReport.toValue)),
     ("diagnostics", .array (r.diagnostics.map Diagnostic.toValue)),
     ("changelog", .strings r.changelog)]

-- What is put out for a run that ended with an error.
def RunError.toValue (e : RunError) : Value :=
  .object
    [("status", .string "error"),
     ("error", .object [("code", .number e.code), ("message", .string e.message)])]

def Settings.toValue (s : Settings) : Value :=
  let packages :=
    [("enabled", .bool s.packages.enabled), ("tool", .string s.packages.tool),
     ("prefixes", .strings s.packages.prefixes),
     ("timeout_secs", .number s.packages.timeout.toNat)]
  let registry :=
    [("enabled", .bool s.registry.enabled), ("timeout_secs", .number s.registry.timeout.toNat)]
  .object
    [("netbump", .object
      [("dry_run", .bool s.dryRun), ("exclude", .strings s.exclude),
       ("disabled", .strings s.disabled), ("packages", .object packages),
       ("registry", .object registry)])]

-- An upgrader as it is listed.
def UpgraderInfo.toValue (u : UpgraderInfo) (enabled : Bool) : Value :=
  .object
    [("name", .string u.name), ("priority", .number u.priority), ("patterns", .strings u.patterns),
     ("enabled", .bool enabled)]

-- All upgraders in the order in which they run.
def Settings.listing (s : Settings) : Value :=
  .array (Upgrader.all.map fun u => u.info.toValue (!s.isDisabled u.info.name))

end Repin
