import Repin.Span
import Repin.Text.Lines
/-!
# Patches

A patch is a list of edits in the order of the document, none of which overlaps the next. It is
applied in one forward pass that copies every byte outside the edits.
-/
namespace Repin

-- The replacement of what lies under a span.
structure EditSpan where
  span : Span
  text : String
  deriving DecidableEq

-- The edits of one pass over one document.
structure PatchSet where
  edits : List EditSpan
  ordered : edits.Pairwise fun e f => e.span.stop ≤ f.span.start

-- An edit as reports show it.
structure OutputEdit where
  file : String
  span : Span
  oldText : String
  newText : String
  line : Nat
  col : Nat
  deriving DecidableEq

namespace PatchSet

def empty : PatchSet :=
  ⟨[], .nil⟩

def hasEdits (p : PatchSet) : Bool :=
  !p.edits.isEmpty

-- The first two neighbours of which the first ends behind the start of the second.
def firstOverlap? : List EditSpan → Option (Span × Span)
  | e :: f :: rest =>
    if e.span.stop ≤ f.span.start then firstOverlap? (f :: rest) else some (e.span, f.span)
  | _ => none

-- Where no neighbours overlap, no two edits do, since every span ends after it starts.
theorem pairwise_of_firstOverlap? {edits : List EditSpan} (h : firstOverlap? edits = none) :
    edits.Pairwise fun e f => e.span.stop ≤ f.span.start := by
  induction edits with
  | nil => exact .nil
  | cons e rest ih =>
    match rest with
    | [] => simp
    | f :: rest =>
      simp only [firstOverlap?] at h
      split at h
      · rename_i le
        have tail := ih h
        refine .cons ?_ tail
        intro g hg
        rcases List.mem_cons.1 hg with rfl | hg
        · exact le
        · have := (List.pairwise_cons.1 tail).1 g hg
          have := f.span.start_le_stop
          omega
      · cases h

-- A patch of edits in any order. Edits of one span keep the order they are given in.
def ofUnordered (edits : List EditSpan) : Except Fault PatchSet :=
  let sorted := edits.mergeSort fun e f => (compare e.span f.span).isLE
  match h : firstOverlap? sorted with
  | none => .ok ⟨sorted, pairwise_of_firstOverlap? h⟩
  | some (s, t) => .error (.overlappingEdits s t)

-- A patch with one more edit, which has to start where the last one ends or behind.
def push (p : PatchSet) (e : EditSpan) : Except Fault PatchSet :=
  match h : p.edits.getLast? with
  | none => .ok ⟨[e], by simp⟩
  | some last =>
    if le : last.span.stop ≤ e.span.start then
      .ok ⟨p.edits ++ [e], by
        refine List.pairwise_append.2 ⟨p.ordered, by simp, fun f hf g hg => ?_⟩
        obtain rfl : g = e := by simpa using hg
        obtain ⟨init, hi⟩ := List.getLast?_eq_some_iff.1 h
        have order := p.ordered
        rw [hi] at hf order
        rcases List.mem_append.1 hf with hf | hf
        · have := (List.pairwise_append.1 order).2.2 f hf last (by simp)
          have := last.span.start_le_stop
          omega
        · obtain rfl : f = last := by simpa using hf
          exact le⟩
    else
      .error (.editOutOfOrder e.span last.span)

-- The part of a document between two offsets, which have to lie between characters.
def copy (document : List Char) (start stop : Nat) : Except Fault (List Char) :=
  match Text.slice start stop document with
  | some cs => .ok cs
  | none => .error .splitCharacter

-- Applies edits to a document whose bytes before the cursor have been written.
def applyFrom (document : List Char) (length cursor : Nat) : List EditSpan → Except Fault (List Char)
  | [] => copy document cursor length
  | e :: rest => do
    unless e.span.stop ≤ length do
      throw (.editExceedsDocument e.span length)
    let kept ← copy document cursor e.span.start
    let remaining ← applyFrom document length e.span.stop rest
    return kept ++ e.text.toList ++ remaining

-- The document with the edits made.
def apply (p : PatchSet) (document : String) : Except Fault String :=
  let cs := document.toList
  String.ofList <$> applyFrom cs (Text.byteLength cs) 0 p.edits

-- The edits as reports show them: with the place of each and the text it replaces.
def materialize (p : PatchSet) (file document : String) : List OutputEdit :=
  let cs := document.toList
  p.edits.map fun e =>
    let place := Text.position cs e.span.start
    { file
      span := e.span
      oldText := String.ofList ((Text.slice e.span.start e.span.stop cs).getD [])
      newText := e.text
      line := place.line
      col := place.col }

end PatchSet
end Repin
