import Repin.Locate.Site
import Repin.Version.Token
/-!
# Candidates

A candidate is a token that was read from a selected site. Candidates are sorted by their spans, and
overlaps are resolved: the more specific candidate stays, and of two equally specific ones the inner.
-/
namespace Repin

structure Candidate where
  token : Token
  span : Span
  -- The line on which the span starts.
  line : Nat
  specificity : Nat
  block : Bool
  deriving DecidableEq

namespace Candidate

-- Whether a candidate takes the place of an overlapping one before it.
def replaces (candidate last : Candidate) : Except Fault Bool :=
  if candidate.specificity ≠ last.specificity then
    .ok (last.specificity < candidate.specificity)
  else if last.span = candidate.span then
    .error (.tiedCandidates candidate.span)
  else if last.span.contains candidate.span then
    .ok true
  else if candidate.span.contains last.span then
    .ok false
  else
    .error (.crossingCandidates last.span candidate.span)

-- Works a further candidate into the survivors, which are kept in reverse.
def keep (kept : List Candidate) (candidate : Candidate) : Except Fault (List Candidate) :=
  match kept with
  | [] => .ok [candidate]
  | last :: rest =>
    if !last.span.overlaps candidate.span then
      .ok (candidate :: last :: rest)
    else do
      if ← candidate.replaces last then
        return candidate :: rest
      else
        return last :: rest

-- The survivors among candidates in any order, sorted by span.
def resolveOverlaps (candidates : List Candidate) : Except Fault (List Candidate) := do
  let sorted := candidates.mergeSort fun a b => (compare a.span b.span).isLE
  let kept ← sorted.foldlM keep []
  return kept.reverse

-- Reads the token of a selected site; `none` where the site cannot be patched, where the part does
-- not lie between characters, and where the text is outside the selected grammar.
def ofSite? (source : List Char) (selection : Selection) (site : Site) :
    Except Fault (Option Candidate) :=
  if !site.patchable then
    .ok none
  else do
    let span ←
      match selection.range with
      | some (start, stop) => site.span.narrow start stop
      | none => pure site.span
    match Text.slice span.start span.stop source with
    | none => return none
    | some text =>
      match Token.parse (String.ofList text) selection.kind with
      | .ok token =>
        return some
          { token
            span
            line := (Text.position source span.start).line
            specificity := selection.specificity
            block := site.block }
      | .error (.refused _) => return none
      | .error (.fault fault) => throw fault

-- The candidates of the sites that a predicate selects, in the order of the sites.
def collect (source : List Char) (select : Site → Except Fault (Option Selection)) :
    List Site → Except Fault (List Candidate)
  | [] => .ok []
  | site :: rest => do
    match ← select site with
    | none => collect source select rest
    | some selection =>
      match ← ofSite? source selection site with
      | none => collect source select rest
      | some candidate => return candidate :: (← collect source select rest)

-- The candidates of a document.
def find (source : String) (sites : List Site) (select : Site → Except Fault (Option Selection)) :
    Except Fault (List Candidate) := do
  resolveOverlaps (← collect source.toList select sites)

end Candidate
end Repin
