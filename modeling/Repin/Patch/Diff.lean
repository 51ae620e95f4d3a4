import Repin.Patch.Basic
/-!
# Unified diffs

A hunk shows the whole lines that its edits touch, without context. Edits share a hunk when the lines
of the later one start no later than the lines of the earlier one end.
-/
namespace Repin

-- Edits and the bounds of the lines they touch.
structure Hunk where
  start : Nat
  stop : Nat
  edits : List EditSpan

namespace Hunk

-- The bounds of the lines that an edit touches.
def bounds (document : List Char) (e : EditSpan) : Except Fault (Nat × Nat) :=
  match Text.lineStart? document e.span.start, Text.lineEnd? document e.span.stop with
  | some start, some stop => .ok (start, stop)
  | _, _ => .error .splitCharacter

-- Adds edits to the last of the hunks, or opens new ones; `last` is the open hunk with its edits in
-- reverse.
def groupFrom (document : List Char) (last : Hunk) : List EditSpan → Except Fault (List Hunk)
  | [] => .ok [{ last with edits := last.edits.reverse }]
  | e :: rest => do
    let (start, stop) ← bounds document e
    if start ≤ last.stop then
      groupFrom document ⟨last.start, max last.stop stop, e :: last.edits⟩ rest
    else
      return { last with edits := last.edits.reverse } :: (← groupFrom document ⟨start, stop, [e]⟩ rest)

-- The hunks of ordered edits.
def group (document : List Char) : List EditSpan → Except Fault (List Hunk)
  | [] => .ok []
  | e :: rest => do
    let (start, stop) ← bounds document e
    groupFrom document ⟨start, stop, [e]⟩ rest

-- The lines under a hunk after its edits, of which `cursor` bytes have been written.
def newTextFrom (document : List Char) (stop cursor : Nat) :
    List EditSpan → Except Fault (List Char)
  | [] => PatchSet.copy document cursor stop
  | e :: rest => do
    let kept ← PatchSet.copy document cursor e.span.start
    let remaining ← newTextFrom document stop e.span.stop rest
    return kept ++ e.text.toList ++ remaining

def newText (document : List Char) (h : Hunk) : Except Fault (List Char) :=
  newTextFrom document h.stop h.start h.edits

-- The lines of a hunk's text, each without one carriage return at its end.
def displayLines (cs : List Char) : List (List Char) :=
  (Text.splitAt '\n' cs).map (Text.stripLast '\r')

-- Number of the line at an offset that starts a line.
def lineNumber (document : List Char) (offset : Nat) : Nat :=
  (Text.position document offset).line

-- The lines of a hunk, each behind its sign.
def signed (sign : Char) (lines : List (List Char)) : List Char :=
  lines.flatMap fun line => sign :: line ++ ['\n']

-- The text of a hunk and the number of lines by which it makes the document longer. `shift` is
-- that number for the hunks before.
def render (document : List Char) (shift : Int) (h : Hunk) : Except Fault (List Char × Int) := do
  let old := displayLines (← PatchSet.copy document h.start h.stop)
  let new := displayLines (← h.newText document)
  let first := lineNumber document h.start
  let newFirst := (first + shift).toNat
  let header :=
    "@@ -" ++ toString first ++ "," ++ toString old.length ++ " +" ++ toString newFirst ++ ","
      ++ toString new.length ++ " @@\n"
  return (header.toList ++ signed '-' old ++ signed '+' new, new.length - old.length)

-- The texts of hunks in order.
def renderAll (document : List Char) (shift : Int) : List Hunk → Except Fault (List Char)
  | [] => .ok []
  | h :: rest => do
    let (text, growth) ← h.render document shift
    return text ++ (← renderAll document (shift + growth) rest)

end Hunk

namespace PatchSet

-- The patch of a file as a unified diff; empty for a patch without edits.
def diff (p : PatchSet) (path document : String) : Except Fault String :=
  if !p.hasEdits then
    .ok ""
  else do
    let cs := document.toList
    let hunks ← Hunk.renderAll cs 0 (← Hunk.group cs p.edits)
    return "--- a/" ++ path ++ "\n+++ b/" ++ path ++ "\n" ++ String.ofList hunks

end PatchSet
end Repin
