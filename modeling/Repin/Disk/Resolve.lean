import Repin.Disk.Basic
import Repin.Text.Split
/-!
# Where paths lead

A path as a user writes it can go through links, up and in place. It is resolved to the path under
which the disk keeps the entry.
-/
namespace Repin.Disk

-- The most links that a path may go through.
def maxLinks : Nat := 40

-- The path of names that are in reverse.
def pathOf (reversed : List String) : String :=
  "/".intercalate reversed.reverse

-- The names that a path consists of.
def names (path : String) : List String :=
  (Text.splitAt '/' path.toList).map String.ofList

-- Follows names from a place on. The top of the disk cannot be left.
def follow (d : Disk) (links : Nat) (place : List String) : List String → Option (List String)
  | [] => some place
  | name :: rest =>
    if name = "" ∨ name = "." then
      if d.isDirectory (pathOf place) then d.follow links place rest else none
    else if name = ".." then
      if d.isDirectory (pathOf place) then d.follow links place.tail rest else none
    else
      match d.find? (pathOf (name :: place)) with
      | some (.link target) =>
        if links = 0 ∨ target.toList.head? = some '/' then none
        else d.follow (links - 1) place (names target ++ rest)
      | _ => d.follow links (name :: place) rest
  termination_by rest => (links, rest.length)
  decreasing_by
    all_goals first
      | (apply Prod.Lex.right; simp)
      | (apply Prod.Lex.left; omega)

-- The path under which the disk keeps what a path leads to.
def resolve? (d : Disk) (path : String) : Option String :=
  if path.toList.head? = some '/' then none
  else (d.follow maxLinks [] (names path)).map pathOf

end Repin.Disk
