import Repin.Text.Bytes
import Repin.Text.Digit
/-!
# Frameworks in paths

Build output lies in a folder that is named for its framework, as in `bin/Debug/net6.0/App.dll`.
-/
namespace Repin.MonikerPath

def isSeparator (c : Char) : Bool :=
  c == '/' || c == '\\'

-- Whether a folder is named `net`, digits, a dot and digits. The digits may be of any script.
def isMoniker (folder : List Char) : Bool :=
  match folder with
  | 'n' :: 'e' :: 't' :: rest =>
    let (major, behind) := rest.span Text.isDecimalDigit
    match behind with
    | '.' :: minor => !major.isEmpty && !minor.isEmpty && minor.all Text.isDecimalDigit
    | _ => false
  | _ => false

-- The byte range of the first folder that is named for a framework, from a folder on that starts at
-- an offset and of which `folder` has been read in reverse.
def findFrom (start : Nat) (folder : List Char) : List Char → Option (Nat × Nat)
  | [] =>
    if isMoniker folder.reverse then some (start, start + Text.byteLength folder) else none
  | c :: cs =>
    if isSeparator c then
      if isMoniker folder.reverse then some (start, start + Text.byteLength folder)
      else findFrom (start + Text.byteLength folder + 1) [] cs
    else
      findFrom start (c :: folder) cs

-- The byte range of the first folder of a path that is named for a framework.
def find? (path : String) : Option (Nat × Nat) :=
  findFrom 0 [] path.toList

end Repin.MonikerPath
