/-!
# Disks

A disk holds files, links and directories by their paths. A path is the names that lead to its entry,
joined by slashes; the top of the disk is the empty path. Directories exist also where only an entry
beneath them is kept. Reading can be refused for single paths, and so can each step of writing: a file
is written beside the place it is meant for and then moved there.
-/
namespace Repin

inductive Entry where
  | file (bytes : ByteArray)
  | link (target : String)
  | directory

-- Why a file could not be read or written.
inductive DiskFailure where
  | missing
  | isDirectory
  | refused (cause : String)
  deriving DecidableEq, Repr

def DiskFailure.message : DiskFailure → String
  | missing => "No such file or directory (os error 2)"
  | isDirectory => "Is a directory (os error 21)"
  | refused cause => cause

-- The steps in which a file is put at a path.
inductive WriteStep where
  -- An empty file is made beside the path.
  | create
  -- The bytes are written, or only so many of them if the step is refused.
  | fill (written : Nat)
  | flush
  -- The file is moved to the path.
  | move
  deriving DecidableEq, Repr

structure Disk where
  entries : List (String × Entry) := []
  -- The paths that may not be read, each with the cause.
  unreadable : List (String × String) := []
  -- The paths that may not be written, each with the step that is refused and the cause.
  unwritable : List (String × WriteStep × String) := []

namespace Disk

def find? (d : Disk) (path : String) : Option Entry :=
  d.entries.lookup path

-- Puts an entry at a path, in the place of the one that is there.
def insert (d : Disk) (path : String) (entry : Entry) : Disk :=
  { d with entries := (path, entry) :: d.entries.filter (·.1 != path) }

def erase (d : Disk) (path : String) : Disk :=
  { d with entries := d.entries.filter (·.1 != path) }

theorem lookup_filter_ne {entries : List (String × Entry)} {path other : String} (h : other ≠ path) :
    (entries.filter (·.1 != path)).lookup other = entries.lookup other := by
  induction entries with
  | nil => rfl
  | cons e rest ih =>
    obtain ⟨key, entry⟩ := e
    by_cases hk : key = path
    · subst hk
      simp [ih, List.lookup_cons, beq_false_of_ne h]
    · simp [hk, ih, List.lookup_cons]

@[simp]
theorem find?_insert_self (d : Disk) (path : String) (entry : Entry) :
    (d.insert path entry).find? path = some entry := by
  simp [find?, insert]

theorem find?_insert_of_ne (d : Disk) {path other : String} (entry : Entry) (h : other ≠ path) :
    (d.insert path entry).find? other = d.find? other := by
  simp [find?, insert, List.lookup_cons, beq_false_of_ne h, lookup_filter_ne h]

-- What lies beneath a directory starts with this.
def below (path : String) : String :=
  if path = "" then "" else path ++ "/"

-- What of a path lies behind a beginning.
def behind? (beginning path : String) : Option String :=
  if beginning.toList.isPrefixOf path.toList then
    some (String.ofList (path.toList.drop beginning.length))
  else
    none

def isDirectory (d : Disk) (path : String) : Bool :=
  match d.find? path with
  | some .directory => true
  | some (.file _) | some (.link _) => false
  | none => path = "" || d.entries.any fun e => (behind? (below path) e.1).isSome

def isFile (d : Disk) (path : String) : Bool :=
  match d.find? path with
  | some (.file _) => true
  | _ => false

-- The bytes of a file. Links are not followed.
def read (d : Disk) (path : String) : Except DiskFailure ByteArray :=
  match d.unreadable.lookup path with
  | some cause => .error (.refused cause)
  | none =>
    match d.find? path with
    | some (.file bytes) => .ok bytes
    | _ => .error (if d.isDirectory path then .isDirectory else .missing)

-- A path beside another one, in the same directory, that is longer than any on the disk.
def temporary (d : Disk) (path : String) : String :=
  let directory := (path.toList.reverse.dropWhile (· != '/')).reverse
  let longest := d.entries.foldr (fun e n => max e.1.length n) 0
  String.ofList (directory ++ ".tmp".toList ++ List.replicate (longest + 1) '0')

-- Fails where a step of writing a path is refused.
def permit (path : String) (step : WriteStep) : EStateM DiskFailure Disk Unit := fun d =>
  match d.unwritable.lookup path with
  | some (refused, cause) => if refused = step then .error (.refused cause) d else .ok () d
  | none => .ok () d

-- Writes the bytes that are meant for a path to the file beside it.
def fill (path beside : String) (bytes : ByteArray) : EStateM DiskFailure Disk Unit := fun d =>
  match d.unwritable.lookup path with
  | some (.fill written, cause) =>
    .error (.refused cause) (d.insert beside (.file (bytes.extract 0 written)))
  | _ => .ok () (d.insert beside (.file bytes))

-- Moves an entry to a path, in the place of the one that is there.
def move (source target : String) : EStateM DiskFailure Disk Unit := fun d =>
  match d.find? source with
  | some entry => .ok () ((d.erase source).insert target entry)
  | none => .error .missing d

-- Puts a file in the place of whatever is at a path. The file beside it is removed if a step fails.
def write (path : String) (bytes : ByteArray) : EStateM DiskFailure Disk Unit := do
  permit path .create
  let beside := (← get).temporary path
  modify (·.insert beside (.file .empty))
  try
    fill path beside bytes
    permit path .flush
    permit path .move
    move beside path
  catch e =>
    modify (·.erase beside)
    throw e

-- The files of a disk.
def files (d : Disk) : List (String × ByteArray) :=
  d.entries.filterMap fun (path, entry) =>
    match entry with
    | .file bytes => some (path, bytes)
    | .link _ | .directory => none

-- The files that are not as they were before, with what is in them if they are still there.
def changedFiles (before after : Disk) : List (String × Option ByteArray) :=
  let changed := after.files.filter fun (path, bytes) =>
    match before.find? path with
    | some (.file old) => old.data != bytes.data
    | _ => true
  let removed := before.files.filter fun (path, _) => !after.isFile path
  changed.map (fun (path, bytes) => (path, some bytes)) ++ removed.map fun (path, _) => (path, none)

end Disk
end Repin
