/-!
# Spans

A span is a half-open interval of byte offsets, written `[start, stop)`. A span never ends before it
starts: the type says so, and `Span.of` refuses such bounds.

`Fault` lists the ways in which a caller can break the rules of this library. A fault is a mistake of
the program around it, never of a document, so it ends a run instead of becoming a diagnostic.
-/
namespace Repin

structure Span where
  start : Nat
  stop : Nat
  start_le_stop : start ≤ stop
  deriving DecidableEq

namespace Span

def length (s : Span) : Nat :=
  s.stop - s.start

def isEmpty (s : Span) : Bool :=
  s.start == s.stop

-- Two spans overlap when each starts before the other ends, so adjacent spans do not.
def overlaps (s t : Span) : Bool :=
  s.start < t.stop && t.start < s.stop

def contains (s t : Span) : Bool :=
  s.start ≤ t.start && t.stop ≤ s.stop

-- Spans are ordered by their start, then by their end.
instance : Ord Span where
  compare s t := (compare s.start t.start).then (compare s.stop t.stop)

def render (s : Span) : String :=
  "[" ++ toString s.start ++ ", " ++ toString s.stop ++ ")"

theorem overlaps_comm (s t : Span) : s.overlaps t = t.overlaps s := by
  simp [overlaps, Bool.and_comm]

end Span

-- A broken rule of this library.
inductive Fault where
  -- A span was asked for that ends before it starts.
  | invertedSpan (start stop : Nat)
  -- A part was asked for that reaches past its span.
  | partExceedsSpan (start stop : Nat) (span : Span)
  -- Two edits of one patch overlap.
  | overlappingEdits (first second : Span)
  -- An edit was appended that starts before the last one ends.
  | editOutOfOrder (edit last : Span)
  -- An edit reaches past the end of the document.
  | editExceedsDocument (edit : Span) (length : Nat)
  -- A text was cut inside a character.
  | splitCharacter
  -- The product of two numbers does not fit into 64 bits.
  | overflow
  -- Two predicates of equal specificity selected one value.
  | tiedPredicates (span : Span)
  -- Two candidates of equal specificity have one span.
  | tiedCandidates (span : Span)
  -- Two candidates of equal specificity overlap and neither contains the other.
  | crossingCandidates (first second : Span)
  deriving DecidableEq

namespace Fault

-- The wording of a fault. A cut inside a character and a product that is too large have none of
-- their own.
def message? : Fault → Option String
  | invertedSpan start stop =>
    some ("Span start (" ++ toString start ++ ") must be <= end (" ++ toString stop ++ ")")
  | partExceedsSpan start stop span =>
    some ("narrowed range " ++ toString start ++ ".." ++ toString stop ++ " exceeds span "
      ++ span.render)
  | overlappingEdits first second =>
    some ("overlapping edits " ++ first.render ++ " and " ++ second.render)
  | editOutOfOrder edit last =>
    some ("edit " ++ edit.render ++ " is out of order after " ++ last.render)
  | editExceedsDocument edit length =>
    some ("edit " ++ edit.render ++ " exceeds document length " ++ toString length)
  | splitCharacter | overflow => none
  | tiedPredicates span =>
    some ("two predicates selected the value at " ++ span.render ++ " with equal specificity")
  | tiedCandidates span =>
    some ("ambiguous candidates at " ++ span.render ++ " with equal specificity")
  | crossingCandidates first second =>
    some ("candidates " ++ first.render ++ " and " ++ second.render
      ++ " overlap with equal specificity")

end Fault

namespace Span

-- The span with the given bounds.
def of (start stop : Nat) : Except Fault Span :=
  if h : start ≤ stop then .ok ⟨start, stop, h⟩ else .error (.invertedSpan start stop)

-- The part of a span between two offsets relative to its start.
def narrow (s : Span) (start stop : Nat) : Except Fault Span :=
  if s.start + stop ≤ s.stop then
    of (s.start + start) (s.start + stop)
  else
    .error (.partExceedsSpan start stop s)

-- The span of a text of the given length.
def ofLength (start length : Nat) : Span :=
  ⟨start, start + length, Nat.le_add_right start length⟩

end Span
end Repin
