import Repin.Disk.Location
import Repin.Disk.Resolve
import Repin.Error
import Repin.Settings
/-!
# Workspaces

A workspace is a directory and the files in it, sorted by their paths. Links are neither followed nor
listed, and directories that hold output, packages or version control are passed over.
-/
namespace Repin

structure Workspace where
  root : Location
  -- What the disk's paths of the workspace's files start with.
  base : String
  -- The files by their paths from the root on.
  files : List String
  deriving DecidableEq, Repr

namespace Workspace

-- Directories that are not looked into.
def skippedDirectories : List String :=
  [".git", "bin", "obj", "node_modules", ".vs", "artifacts", "packages", "TestResults"]

-- Whether a file lies beneath a directory that is not looked into.
def isSkipped (file : String) : Bool :=
  (Disk.names file).dropLast.any skippedDirectories.contains

-- What each pattern of a set selects, or what is wrong with the first that is malformed.
def readPatterns (readers : Readers) (patterns : List String) :
    Except RunError (List (String → Bool)) :=
  patterns.mapM fun pattern => (readers.glob pattern).mapError fun reason =>
    .invalidArguments
      ("invalid glob '" ++ pattern ++ "': error parsing glob '" ++ pattern ++ "': " ++ reason)

-- The files beneath a directory that are neither skipped nor excluded, sorted.
def inventory (d : Disk) (base : String) (excluded : List (String → Bool)) : List String :=
  let files := d.entries.filterMap fun (path, entry) =>
    match entry with
    | .file _ => Disk.behind? base path
    | .link _ | .directory => none
  let kept := files.filter fun file => !isSkipped file && !excluded.any (· file)
  kept.mergeSort fun a b => decide (a ≤ b)

-- Lists the files beneath a directory.
def discover (readers : Readers) (d : Disk) (root : Location) (exclude : List String) :
    Except RunError Workspace := do
  match d.resolve? root.path with
  | none => throw (.workspace root.shown "not a directory")
  | some path =>
    unless d.isDirectory path do
      throw (.workspace root.shown "not a directory")
    let excluded ← readPatterns readers exclude
    return ⟨root, Disk.below path, inventory d (Disk.below path) excluded⟩

-- The path of a file of the workspace on the disk.
def pathOf (w : Workspace) (file : String) : String :=
  w.base ++ file

-- How a file of the workspace is written in messages.
def display (w : Workspace) (file : String) : String :=
  w.root.display file

-- The files that one of the patterns selects, in order.
def matching (w : Workspace) (patterns : List (String → Bool)) : List String :=
  w.files.filter fun file => patterns.any (· file)

end Workspace

namespace Settings

-- The settings of the workspace at a location; the defaults if it has no file of them.
def load (readers : Readers) (d : Disk) (root : Location) : Except RunError Settings :=
  match d.resolve? (root.child path) with
  | none => .ok {}
  | some file =>
    if d.isFile file || d.isDirectory file then
      match d.read file with
      | .error e => .error (.config ("failed to read config file: " ++ e.message))
      | .ok bytes => ofBytes readers bytes
    else
      .ok {}

end Settings
end Repin
