import Repin.CommandLine.Execution
import Repin.Readers.Standard
import Repin.Report.Instant
import Std.Time.DateTime
/-!
# The program

Reads the workspace into a disk, executes the invocation on it, and writes the files that it changed.
-/
namespace Repin

-- What is beneath a directory. Directories that are not looked into are left empty.
partial def readTree (path start : String) : IO (List (String × Entry)) := do
  let place : IO.FS.DirEntry := ⟨path, "."⟩
  let mut entries := []
  for child in ← place.path.readDir do
    let name := start ++ child.fileName
    match (← child.path.symlinkMetadata).type with
    | .file => entries := (name, .file (← IO.FS.readBinFile child.path)) :: entries
    | .dir =>
      entries := (name, .directory) :: entries
      unless Workspace.skippedDirectories.contains child.fileName do
        entries := (← readTree child.path.toString (name ++ "/")) ++ entries
    | .symlink =>
      -- Settings may be kept elsewhere; other links are not followed.
      if name = Settings.path ∧ (← child.path.pathExists) then
        entries := (name, .file (← IO.FS.readBinFile child.path)) :: entries
    | .other => pure ()
  return entries

-- Writes the files in which two disks differ.
def writeChanges (path : String) (before after : Disk) : IO Unit := do
  for (name, bytes) in before.changedFiles after do
    if let some bytes := bytes then
      let file := path ++ "/" ++ name
      IO.FS.writeBinFile (file ++ ".tmp") bytes
      IO.FS.rename (file ++ ".tmp") file

end Repin

open Repin in
def main (arguments : List String) : IO UInt32 := do
  let current : String := (← IO.currentDir).toString
  let named : Option String :=
    match CommandLine.Invocation.read arguments with
    | .ok invocation => invocation.workspace
    | .error _ => none
  let path : String := named.getD current
  let place : IO.FS.DirEntry := ⟨path, "."⟩
  let isDirectory ← place.path.isDir
  let entries ← if isDirectory then readTree path "" else pure []
  let locate (workspace : Option String) : Location :=
    ⟨if isDirectory then "" else path, workspace.getD current⟩
  let startedAt := Instant.render ⟨(← Std.Time.Timestamp.now).toSecondsSinceUnixEpoch.val.toNat⟩
  let before : Disk := { entries }
  let (output, world) :=
    CommandLine.run .standard CommandLine.surroundings locate startedAt arguments
      { disk := before, outside := () }
  writeChanges path before world.disk
  IO.print output.stdout
  IO.eprint output.stderr
  return output.exitCode.toUInt32
