import Repin.Locate.Site
import Repin.Text.Blank
import Repin.Xml.Char
/-!
# XML trees

A tree keeps of a document what a value can stand in: elements with their attributes, and runs of
text. A document shows the attributes of an element and its text as sites. Text is cut down to what
lies between its blanks, so that formatting never becomes part of an edit; attributes are shown to be
looked at and are never patchable.
-/
namespace Repin.Xml

inductive Node where
  -- An element whose tag starts at an offset.
  | element (name : String) (start : Nat) (attributes : List (String × String))
      (children : List Node)
  -- A run of text, decoded, and where its first part is written.
  | text (span : Span) (value : String)

namespace Node

-- The site of a run of text: what lies between its blanks. It is patchable where the source under
-- the span is the text, with no reference decoded and no line end changed.
def textSite? (source : List Char) (path : List Frame) (span : Span) (text : String) :
    Option Site :=
  let decoded := text.toList
  let value := Text.trim decoded
  if value.isEmpty then
    none
  else
    let exact := Text.slice span.start span.stop source = some decoded
    let lead := Text.byteLength decoded - Text.byteLength (Text.trimStart decoded)
    some
      { path
        value := String.ofList value
        span :=
          if exact then .ofLength (span.start + lead) (Text.byteLength value)
          else .ofLength span.start 0
        block := value.contains '\n'
        patchable := exact }

-- The sites of the attributes of an element.
def attributeSites (path : List Frame) (start : Nat) (attributes : List (String × String)) :
    List Site :=
  attributes.map fun (name, value) =>
    { path := path ++ [{ segment := .key name }]
      value, span := .ofLength start 0, block := false, patchable := false }

mutual

-- The sites of a node below a path.
def sitesOf (source : List Char) (path : List Frame) : Node → List Site
  | text span value => (textSite? source path span value).toList
  | element name start attributes children =>
    let path := path ++ [⟨.element name, attributes⟩]
    attributeSites path start attributes ++ sitesOfChildren source path children

def sitesOfChildren (source : List Char) (path : List Frame) : List Node → List Site
  | [] => []
  | child :: children => sitesOf source path child ++ sitesOfChildren source path children

end

end Node

-- The sites of a document in the order of its text.
def sites (text : String) (root : Node) : List Site :=
  root.sitesOf text.toList []

-- An element whose end has not been read.
structure OpenElement where
  name : QName
  start : Nat
  attributes : List (String × String)
  -- The namespaces in scope: qualifiers with what they stand for, the innermost first.
  scope : List (String × String)
  -- The children so far, the last first.
  children : List Node := []

-- A tree while its document is read.
structure Builder where
  -- The open elements, the innermost first.
  stack : List OpenElement := []
  -- What stands outside of all elements, the last first.
  top : List Node := []
  -- Whether the last thing read was text, which text behind it continues.
  afterText : Bool := false

namespace Builder

-- Changes the list of nodes that the next one joins.
def update (b : Builder) (f : List Node → List Node) : Builder :=
  match b.stack with
  | [] => { b with top := f b.top }
  | innermost :: outer =>
    { b with stack := { innermost with children := f innermost.children } :: outer }

def addElement (b : Builder) (name : String) (start : Nat) (attributes : List (String × String))
    (children : List Node) : Builder :=
  { b.update (Node.element name start attributes children :: ·) with afterText := false }

-- Adds a run of text; right behind text it continues that.
def addText (b : Builder) (span : Span) (value : String) : Builder :=
  let added := b.update fun nodes =>
    match nodes with
    | .text first text :: rest =>
      if b.afterText then .text first (text ++ value) :: rest else .text span value :: nodes
    | _ => .text span value :: nodes
  { added with afterText := true }

-- Text behind a comment or an instruction is a run of its own.
def endText (b : Builder) : Builder :=
  { b with afterText := false }

-- The namespaces in scope.
def scope (b : Builder) : List (String × String) :=
  (b.stack.head?.map (·.scope)).getD []

def openElement (b : Builder) (e : OpenElement) : Builder :=
  { b with stack := e :: b.stack, afterText := false }

-- Ends the innermost element, if it has the given name.
def closeElement? (b : Builder) (name : QName) : Option Builder :=
  match b.stack with
  | [] => none
  | e :: outer =>
    if e.name = name then
      some (addElement { b with stack := outer } name.localName e.start e.attributes
        e.children.reverse)
    else
      none

-- The root of a document that was read to its end.
def root? (b : Builder) : Option Node :=
  if b.stack.isEmpty then
    b.top.reverse.find? fun
      | .element .. => true
      | .text .. => false
  else
    none

end Builder
end Repin.Xml
