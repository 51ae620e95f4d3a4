import Repin.Span
import Repin.Text.Lines
import Repin.Version.Failure
/-!
# Sites

A document of any format shows its scalar values as sites: the decoded value, the path of keys,
positions and elements that leads to it, and the span of its source. A predicate on sites selects
those that hold a version, and says in which grammar.
-/
namespace Repin

-- One step of the path from the root of a document to a value.
inductive Segment where
  | key (name : String)
  | index (position : Nat)
  -- An XML element, or an instruction such as `FROM`.
  | element (name : String)
  deriving DecidableEq, Repr

-- A step and the values beside it: the scalar entries of the same mapping, or the attributes of the
-- element.
structure Frame where
  segment : Segment
  fields : List (String × String) := []
  deriving DecidableEq, Repr

-- The value of a field; the first one where a name is repeated.
def Frame.field? (f : Frame) (name : String) : Option String :=
  f.fields.lookup name

-- A scalar value of a document.
structure Site where
  path : List Frame
  value : String
  -- Where the value is written, without quotes and indicators.
  span : Span
  -- Whether the value is written on several lines.
  block : Bool
  -- Whether the source under the span is the value, so that an edit there changes the value and
  -- nothing else.
  patchable : Bool
  deriving DecidableEq

namespace Site

-- The last step of the path.
def leaf? (s : Site) : Option Segment :=
  s.path.getLast?.map (·.segment)

-- The frame some levels above the last one.
def ancestor? (s : Site) (depth : Nat) : Option Frame :=
  s.path.reverse[depth]?

-- A field of an ancestor.
def ancestorField? (s : Site) (depth : Nat) (name : String) : Option String :=
  (s.ancestor? depth).bind (·.field? name)

-- Whether the path ends with the given keys.
def endsWithKeys (s : Site) (keys : List String) : Bool :=
  (keys.map Segment.key).isSuffixOf (s.path.map (·.segment))

end Site

-- What a predicate says about a site: the grammar of its value, or of a part of it.
structure Selection where
  kind : TokenKind
  -- Where selections overlap, the more specific one wins.
  specificity : Nat := 1
  -- The part of the value that holds the version, in bytes; the whole value if there is none.
  range : Option (Nat × Nat) := none
  deriving DecidableEq, Repr

-- A predicate on sites.
abbrev Selector := Site → Option Selection

namespace Selector

-- The more specific of a selection and the best one so far.
def prefer (site : Site) (best : Option Selection) (selection : Selection) :
    Except Fault (Option Selection) :=
  match best with
  | none => .ok (some selection)
  | some current =>
    if current.specificity = selection.specificity then .error (.tiedPredicates site.span)
    else if current.specificity < selection.specificity then .ok (some selection)
    else .ok (some current)

-- Asks further predicates about a site, given the best selection so far.
def anyOfFrom (site : Site) (best : Option Selection) :
    List Selector → Except Fault (Option Selection)
  | [] => .ok best
  | selector :: rest =>
    match selector site with
    | none => anyOfFrom site best rest
    | some selection => do anyOfFrom site (← prefer site best selection) rest

-- The most specific of the selections of several predicates. A selection as specific as the best
-- one before it is a fault.
def anyOf (selectors : List Selector) (site : Site) : Except Fault (Option Selection) :=
  anyOfFrom site none selectors

end Selector

-- Why a text is no document of its format.
structure SyntaxError where
  format : String
  place : Text.Position
  message : String
  deriving DecidableEq, Repr

def SyntaxError.render (e : SyntaxError) : String :=
  e.format ++ " syntax error at " ++ toString e.place.line ++ ":" ++ toString e.place.col ++ ": "
    ++ e.message

end Repin
