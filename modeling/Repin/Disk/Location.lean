import Repin.Disk.Basic
/-!
# Locations

Messages name files the way the user named their directory, not by the paths of the disk.
-/
namespace Repin

-- A directory to work in: where it is on the disk, and how it is written in messages.
structure Location where
  path : String
  shown : String
  deriving DecidableEq, Repr

namespace Location

-- How a file beneath the directory is written in messages.
def display (l : Location) (file : String) : String :=
  if l.shown = "" ∨ l.shown.toList.getLast? = some '/' then l.shown ++ file
  else l.shown ++ "/" ++ file

-- The path of a file beneath the directory.
def child (l : Location) (file : String) : String :=
  Disk.below l.path ++ file

end Location

end Repin
