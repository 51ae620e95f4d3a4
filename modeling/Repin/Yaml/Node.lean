import Repin.Locate.Site
import Repin.Yaml.Event
import Repin.Yaml.Scalar
/-!
# YAML trees

The events of a stream are folded into one tree for each document. A tree shows its scalars as sites,
with the scalar entries of a mapping as the fields of its values. Aliases stand for no site, and
neither does a value whose key is no scalar.
-/
namespace Repin.Yaml

structure Scalar where
  value : String
  place : ScalarPlace
  deriving DecidableEq

-- A YAML value. Of a key only its text is kept, if it has one.
inductive Node where
  | scalar (s : Scalar)
  | sequence (items : List Node)
  | mapping (entries : List (Option String × Node))
  | reference

namespace Node

-- The text of a scalar.
def text? : Node → Option String
  | scalar s => some s.value
  | _ => none

-- A collection whose end has not been read. What was read last stands first.
inductive Partial where
  | sequence (items : List Node)
  -- A mapping in front of a key.
  | beforeKey (entries : List (Option String × Node))
  -- A mapping between a key and its value.
  | beforeValue (entries : List (Option String × Node)) (key : Option String)

namespace Partial

-- Adds a value to the collection: as next item, as key, or as value of the key before it.
def add (node : Node) : Partial → Partial
  | sequence items => sequence (node :: items)
  | beforeKey entries => beforeValue entries node.text?
  | beforeValue entries key => beforeKey ((key, node) :: entries)

-- The collection as it is; a key without a value is dropped.
def close : Partial → Node
  | sequence items => .sequence items.reverse
  | beforeKey entries | beforeValue entries _ => .mapping entries.reverse

end Partial

-- The trees of a stream while its events are read.
structure Builder where
  -- The collections that are open, the innermost first.
  stack : List Partial := []
  -- The finished documents, the last first.
  documents : List Node := []

namespace Builder

-- Adds a finished value to the innermost collection, or as a document.
def add (b : Builder) (node : Node) : Builder :=
  match b.stack with
  | [] => { b with documents := node :: b.documents }
  | innermost :: outer => { b with stack := innermost.add node :: outer }

def openCollection (b : Builder) (p : Partial) : Builder :=
  { b with stack := p :: b.stack }

-- Ends the innermost collection.
def closeCollection (b : Builder) : Builder :=
  match b.stack with
  | [] => b
  | innermost :: outer => add { b with stack := outer } innermost.close

-- Takes an event; `place` finds a scalar in the source.
def step (place : Mark → ScalarStyle → String → ScalarPlace) (b : Builder) : Event → Builder
  | .scalar mark style text => b.add (.scalar ⟨text, place mark style text⟩)
  | .reference => b.add .reference
  | .sequenceStart => b.openCollection (.sequence [])
  | .mappingStart => b.openCollection (.beforeKey [])
  | .sequenceEnd | .mappingEnd => b.closeCollection

end Builder

-- The documents whose events are given.
def ofEvents (place : Mark → ScalarStyle → String → ScalarPlace) (events : List Event) : List Node :=
  (events.foldl (Builder.step place) {}).documents.reverse

-- The entries of a mapping whose key and value are both scalars.
def fieldsOf : List (Option String × Node) → List (String × String)
  | [] => []
  | (some key, scalar s) :: entries => (key, s.value) :: fieldsOf entries
  | _ :: entries => fieldsOf entries

mutual

-- The sites of a value at the end of a path.
def sitesOf (path : List Frame) : Node → List Site
  | scalar s =>
    [{ path, value := s.value, span := s.place.span, block := s.place.block,
       patchable := s.place.patchable }]
  | sequence items => sitesOfItems path 0 items
  | mapping entries => sitesOfEntries path (fieldsOf entries) entries
  | reference => []

-- The sites of the items of a sequence, from a position on.
def sitesOfItems (path : List Frame) (position : Nat) : List Node → List Site
  | [] => []
  | item :: items =>
    sitesOf (path ++ [{ segment := .index position }]) item
      ++ sitesOfItems path (position + 1) items

-- The sites of the entries of a mapping, each of which shows the same fields.
def sitesOfEntries (path : List Frame) (fields : List (String × String)) :
    List (Option String × Node) → List Site
  | [] => []
  | (none, _) :: entries => sitesOfEntries path fields entries
  | (some key, value) :: entries =>
    sitesOf (path ++ [⟨.key key, fields⟩]) value ++ sitesOfEntries path fields entries

end

-- The documents of a text whose events are given.
def read (text : String) (events : List Event) : List Node :=
  let cs := text.toList
  let offsets := Text.CharOffsets.ofText cs
  let place (mark : Mark) (style : ScalarStyle) (value : String) : ScalarPlace :=
    .find cs (offsets.byteOffset mark.index) style value.toList
  ofEvents place events

-- The sites of all documents of a stream, in the order of its text.
def sites (documents : List Node) : List Site :=
  documents.flatMap (sitesOf [])

end Node
end Repin.Yaml
