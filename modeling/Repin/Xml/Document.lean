import Repin.Xml.Node
/-!
# XML documents

A reader for well-formed documents with an optional document type, of which only the entities count.
An entity is read as content at the place of its reference, but where it is declared: text that comes
from an entity is found, and patched, in the declaration. Entities may nest ten levels deep, and one
reference may not bring more than 255 others, so reading ends.
-/
namespace Repin.Xml

-- Why a document is malformed, and where.
structure Malformed where
  offset : Nat
  reason : String
  deriving DecidableEq, Repr

-- What is left of a text and the byte offset at which it starts.
structure Input where
  rest : List Char
  offset : Nat

-- An entity and where its text is declared.
structure Entity where
  name : String
  text : List Char
  offset : Nat

structure Reader where
  input : Input
  entities : List Entity := []
  builder : Builder := {}
  -- Whether the text that is read now has started an element. An end tag needs one in front of it
  -- in the document or in the entity that it stands in.
  started : Bool := false
  -- The references that the outermost reference has brought so far.
  references : Nat := 0

abbrev XmlM := StateT Reader (Except Malformed)

-- A reference: a character, or the name of an entity.
inductive Reference where
  | char (c : Char)
  | entity (name : String)
  deriving DecidableEq, Repr

namespace Reference

-- The number that digits of a base stand for; `none` without digits, with other characters among
-- them, or past 32 bits.
def number? (base : Nat) (digits : List Char) : Option Nat :=
  let n := digits.foldl (fun n c =>
    n * base + (if c.isDigit then c.toNat - 48 else c.toLower.toNat - 87)) 0
  if digits.isEmpty || 0x100000000 ≤ n then none else some n

-- The character of a number; a number that is none of a character gives the replacement
-- character, and one that may not stand in a document gives nothing.
def ofNumber? (n : Nat) : Option Reference :=
  let c := if n.isValidChar then Char.ofNat n else '\uFFFD'
  if isXmlChar c then some (char c) else none

def isHexDigit (c : Char) : Bool :=
  c.isDigit || ('a' ≤ c && c ≤ 'f') || ('A' ≤ c && c ≤ 'F')

def ofName : String → Reference
  | "quot" => char '"'
  | "amp" => char '&'
  | "apos" => char (Char.ofNat 39)
  | "lt" => char '<'
  | "gt" => char '>'
  | name => entity name

-- Reads what stands between the ampersand and the semicolon.
def ofText? : List Char → Option Reference
  | '#' :: 'x' :: digits =>
    if digits.all isHexDigit then number? 16 digits >>= ofNumber? else none
  | '#' :: digits => if digits.all Char.isDigit then number? 10 digits >>= ofNumber? else none
  | c :: cs =>
    if isNameStart c && cs.all isNameChar then some (ofName (String.ofList (c :: cs))) else none
  | [] => none

-- Reads a reference behind its ampersand, with its semicolon; gives the rest.
def read? (cs : List Char) : Option (Reference × List Char) := do
  let (body, rest) := cs.span fun c => c != ';' && (isNameChar c || c == '#')
  match rest with
  | ';' :: rest => return (← ofText? body, rest)
  | _ => none

end Reference

namespace XmlM

def rest : XmlM (List Char) := do return (← get).input.rest
def offset : XmlM Nat := do return (← get).input.offset
def atEnd : XmlM Bool := do return (← rest).isEmpty

def refuse (reason : String) : XmlM α := do
  throw ⟨← offset, reason⟩

def build (f : Builder → Builder) : XmlM Unit :=
  modify fun r => { r with builder := f r.builder }

-- Passes characters.
def pass (n : Nat) : XmlM Unit :=
  modify fun r =>
    let (taken, rest) := r.input.rest.splitAt n
    { r with input := ⟨rest, r.input.offset + Text.byteLength taken⟩ }

-- Passes and gives the characters of a class.
def takeWhile (p : Char → Bool) : XmlM (List Char) := do
  let taken := (← rest).takeWhile p
  pass taken.length
  return taken

def startsWith (s : String) : XmlM Bool := do
  return s.toList.isPrefixOf (← rest)

-- Passes a text that has to stand here.
def accept (s : String) : XmlM Unit := do
  unless ← startsWith s do refuse ("expected " ++ s)
  pass s.length

def skipSpaces : XmlM Unit := do
  let _ ← takeWhile isSpace

-- Passes blanks, at least one.
def needSpaces : XmlM Unit := do
  if (← takeWhile isSpace).isEmpty then refuse "expected a blank"

-- The characters in front of the first place where a text stands that `stops`; `none` if one of
-- them may not stand in a document.
def charsUntil (stops : List Char → Bool) : List Char → Option (List Char)
  | [] => some []
  | c :: cs =>
    if !isXmlChar c then none
    else if stops (c :: cs) then some []
    else (charsUntil stops cs).map (c :: ·)

-- Passes and gives the characters in front of a text that `stops`.
def takeUntil (stops : List Char → Bool) : XmlM (List Char) := do
  match charsUntil stops (← rest) with
  | none => refuse "a character that may not stand in a document"
  | some taken =>
    pass taken.length
    return taken

-- Passes and gives the characters in front of a mark, and passes the mark.
def takeThrough (mark : String) : XmlM (List Char) := do
  let taken ← takeUntil (mark.toList.isPrefixOf ·)
  accept mark
  return taken

def takeName : XmlM String := do
  match ← rest with
  | c :: _ =>
    unless isNameStart c do refuse "invalid name"
    return String.ofList (← takeWhile isNameChar)
  | [] => refuse "invalid name"

-- Reads a name with at most one colon. Both parts are names; the first may be empty.
def takeQName : XmlM QName := do
  let name ← takeWhile isNameChar
  let startsName (cs : List Char) : Bool := (cs.head?.map isNameStart).getD false
  let (qualifier, localName) :=
    match name.span (· != ':') with
    | (before, _ :: after) => (before, after)
    | (whole, []) => ([], whole)
  if localName.contains ':' || !startsName localName
      || !(qualifier.isEmpty || startsName qualifier) then
    refuse "invalid name"
  return ⟨String.ofList qualifier, String.ofList localName⟩

-- Passes an opening quote and gives it.
def takeQuote : XmlM Char := do
  match ← rest with
  | c :: _ =>
    unless c == '"' || c == Char.ofNat 39 do refuse "expected a quote"
    pass 1
    return c
  | [] => refuse "expected a quote"

-- Reads an attribute: its name, and the offset and the characters of its value as written.
def takeAttribute : XmlM (QName × List Char) := do
  let name ← takeQName
  skipSpaces
  accept "="
  skipSpaces
  let quote ← takeQuote
  let value ← takeUntil fun cs => cs.head? == some quote || cs.head? == some '<'
  accept (String.singleton quote)
  return (name, value)

/-! References. Where text is read, `levels` more entities may be nested. -/

-- How deep entities may be nested.
def maxLevels : Nat := 10

-- Whether what is read stands in an entity.
def nested (levels : Nat) : Bool := levels < maxLevels

-- Notes one more reference below the outermost one.
def countReference (levels : Nat) : XmlM Unit := do
  if nested levels then
    if (← get).references = 255 then refuse "too many entity references"
    modify fun r => { r with references := r.references + 1 }

-- Ends an outermost reference.
def endReference (levels : Nat) : XmlM Unit := do
  unless nested levels do
    modify fun r => { r with references := 0 }

def findEntity (name : String) : XmlM Entity := do
  match (← get).entities.find? (·.name == name) with
  | some e => return e
  | none => refuse "an unknown entity"

/-! Attribute values: line ends and tabs become spaces, unless they are written as references. -/

-- The characters of a value in which entities are put in by `expand`.
def normalizeWith (levels : Nat) (expand : Entity → XmlM (List Char)) :
    Nat → List Char → XmlM (List Char)
  | 0, _ | _, [] => return []
  | n + 1, '&' :: cs => do
    match Reference.read? cs with
    | none => refuse "a malformed reference"
    | some (.char c, rest) =>
      if nested levels && c == '<' then refuse "an escaped bracket in an entity"
      let c := if nested levels && (c == '\n' || c == '\r' || c == '\t') then ' ' else c
      return c :: (← normalizeWith levels expand n rest)
    | some (.entity name, rest) =>
      let e ← findEntity name
      countReference levels
      let text ← expand e
      endReference levels
      return text ++ (← normalizeWith levels expand n rest)
  | n + 1, '\r' :: '\n' :: cs => normalizeWith levels expand n ('\n' :: cs)
  | n + 1, c :: cs => do
    let c := if c == '\n' || c == '\r' || c == '\t' then ' ' else c
    return c :: (← normalizeWith levels expand n cs)

-- The text of an entity inside an attribute value, at most some levels deep.
def expandInValue : Nat → Entity → XmlM (List Char)
  | 0, _ => refuse "entities are nested too deeply"
  | levels + 1, e => normalizeWith levels (expandInValue levels) e.text.length e.text

def normalizeValue (levels : Nat) (value : List Char) : XmlM String :=
  String.ofList <$> normalizeWith levels (expandInValue levels) value.length value

/-! Names and namespaces -/

def xmlNamespace : String := "http://www.w3.org/XML/1998/namespace"
def xmlnsNamespace : String := "http://www.w3.org/2000/xmlns/"

-- The namespaces that the attributes of an element declare, by their qualifiers.
def declaredNamespaces : List (QName × String) → XmlM (List (String × String))
  | [] => return []
  | (name, value) :: attributes => do
    let declared ← declaredNamespaces attributes
    if name.qualifier = "xmlns" then
      if value = xmlnsNamespace then refuse "a reserved namespace"
      if (name.localName == "xml") != (value == xmlNamespace) then refuse "a reserved namespace"
      if (declared.lookup name.localName).isSome then refuse "a namespace is declared twice"
      return if name.localName = "xml" then declared else (name.localName, value) :: declared
    else if name.localName = "xmlns" then
      if value = xmlNamespace || value = xmlnsNamespace then refuse "a reserved namespace"
      return declared
    else
      return declared

-- The namespace of a qualifier, which has to be declared. No qualifier means no namespace.
def resolve (scope : List (String × String)) (qualifier : String) : XmlM (Option String) := do
  if qualifier.isEmpty then
    return none
  match scope.lookup qualifier with
  | some namespaceName => return some namespaceName
  | none => refuse "an unknown namespace"

-- The attributes that declare no namespace, each with its namespace.
def resolveAttributes (scope : List (String × String)) :
    List (QName × String) → XmlM (List (Option String × String × String))
  | [] => return []
  | (name, value) :: attributes => do
    let resolved ← resolveAttributes scope attributes
    if name.qualifier = "xmlns" || name.localName = "xmlns" then
      return resolved
    let namespaceName ←
      if name.qualifier = "xml" then pure (some xmlNamespace) else resolve scope name.qualifier
    if resolved.any fun (other, otherName, _) =>
        other == namespaceName && otherName == name.localName then
      refuse "an attribute is repeated"
    return (namespaceName, name.localName, value) :: resolved

/-! Text -/

-- Text while its line ends are turned into line feeds.
structure LineEnds where
  -- The characters so far, in reverse.
  chars : List Char := []
  -- Whether a reference stood in front: the next character is taken as it is.
  verbatim : Bool := false

-- Adds a character; `last` tells whether nothing follows it. A carriage return waits for the next
-- character, and together with a line feed it becomes one.
def LineEnds.add (t : LineEnds) (c : Char) (last : Bool) : LineEnds :=
  if t.verbatim then
    ⟨c :: t.chars, false⟩
  else
    let c' := if last && c == '\r' then '\n' else c
    match t.chars with
    | '\r' :: before =>
      if c == '\n' then ⟨'\n' :: before, false⟩ else ⟨c' :: '\n' :: before, false⟩
    | chars => ⟨c' :: chars, false⟩

-- Adds the text gathered so far to the tree.
def flushText (span : Span) (t : LineEnds) : XmlM Unit := do
  unless t.chars.isEmpty do
    build (·.addText span (String.ofList t.chars.reverse))

-- Reads a run of text in which entities are put in by `expand`.
def readTextWith (levels : Nat) (expand : Entity → XmlM Unit) (span : Span) :
    Nat → LineEnds → List Char → XmlM Unit
  | 0, t, _ | _, t, [] => flushText span t
  | n + 1, t, '&' :: cs => do
    match Reference.read? cs with
    | none => refuse "a malformed reference"
    | some (.char c, rest) =>
      let t := if nested levels then { t with verbatim := false }.add c rest.isEmpty
        else ⟨c :: t.chars, true⟩
      readTextWith levels expand span n t rest
    | some (.entity name, rest) =>
      let e ← findEntity name
      flushText span t
      countReference levels
      expand e
      endReference levels
      readTextWith levels expand span n {} rest
  | n + 1, t, c :: cs => readTextWith levels expand span n (t.add c cs.isEmpty) cs

-- Reads the text in front of the next tag.
def readText (levels : Nat) (expand : Entity → XmlM Unit) : XmlM Unit := do
  let start ← offset
  let text ← takeUntil (·.head? == some '<')
  if Text.occursIn "]]>".toList text then refuse "the end of a section in text"
  let span := Span.ofLength start (Text.byteLength text)
  if text.contains '&' || text.contains '\r' then
    readTextWith levels expand span text.length {} text
  else
    build (·.addText span (String.ofList text))

-- Line ends of a section without references.
def plainLineEnds : List Char → List Char
  | [] => []
  | '\r' :: '\n' :: cs => '\n' :: plainLineEnds cs
  | '\r' :: cs => '\n' :: plainLineEnds cs
  | c :: cs => c :: plainLineEnds cs

def readSection : XmlM Unit := do
  let start ← offset
  accept "<![CDATA["
  let text ← takeThrough "]]>"
  let stop ← offset
  build (·.addText (.ofLength start (stop - start)) (String.ofList (plainLineEnds text)))

/-! Markup -/

def readComment : XmlM Unit := do
  accept "<!--"
  let text ← takeThrough "-->"
  if Text.occursIn "--".toList text || text.getLast? == some '-' then refuse "two hyphens in a comment"
  build (·.endText)

-- Reads a processing instruction. The declaration of a document is none.
def readInstruction : XmlM Unit := do
  if ← startsWith "<?xml " then refuse "a declaration behind the start of the document"
  accept "<?"
  let _ ← takeName
  skipSpaces
  let _ ← takeThrough "?>"
  build (·.endText)

-- Reads the attributes of a start tag and its end: whether it closes the element, too. At the end
-- of the text there is no answer.
def readAttributes : Nat → XmlM (Option (List (QName × List Char) × Bool))
  | 0 => return none
  | n + 1 => do
    if ← atEnd then return none
    let spaces ← takeWhile isSpace
    if ← startsWith "/" then
      pass 1
      accept ">"
      return some ([], true)
    if ← startsWith ">" then
      pass 1
      return some ([], false)
    if spaces.isEmpty then refuse "expected a blank"
    let first ← takeAttribute
    return (← readAttributes n).map fun (others, closed) => (first :: others, closed)

-- Reads a start tag and puts its element into the tree; answers whether content follows.
def readStartTag (levels : Nat) : XmlM Bool := do
  let start ← offset
  accept "<"
  let name ← takeQName
  if name.qualifier = "xmlns" then refuse "a reserved qualifier"
  modify fun r => { r with started := true }
  match ← readAttributes ((← rest).length + 1) with
  | none => return false
  | some (attributes, closed) =>
    let attributes ← attributes.mapM fun (name, value) => do return (name, ← normalizeValue levels value)
    let scope := (← declaredNamespaces attributes) ++ (← get).builder.scope
    let resolved ← resolveAttributes scope attributes
    let _ ← resolve scope name.qualifier
    let shown := resolved.map fun (_, name, value) => (name, value)
    if closed then
      build (·.addElement name.localName start shown [])
    else
      build (·.openElement ⟨name, start, shown, scope, []⟩)
    return !closed

def readEndTag : XmlM Unit := do
  accept "</"
  let name ← takeQName
  skipSpaces
  accept ">"
  let r ← get
  unless r.started do refuse "an end tag in an entity"
  match r.builder.closeElement? name with
  | some b => set { r with builder := b }
  | none => refuse "an end tag of another element"

-- Reads content up to the end tag of the element around it, or to the end of the text. Every step
-- passes a character, so twice the length of the text is enough for all levels.
def readContentWith (levels : Nat) (expand : Entity → XmlM Unit) : Nat → XmlM Unit
  | 0 => pure ()
  | n + 1 => do
    if ← atEnd then return
    if ← startsWith "</" then
      readEndTag
    else
      if ← startsWith "<!--" then readComment
      else if ← startsWith "<![CDATA[" then readSection
      else if ← startsWith "<!" then refuse "unknown markup"
      else if ← startsWith "<?" then readInstruction
      else if ← startsWith "<" then
        if ← readStartTag levels then readContentWith levels expand n
      else readText levels expand
      readContentWith levels expand n

-- Reads an entity as content, at most some levels deep.
def expandInContent : Nat → Entity → XmlM Unit
  | 0, _ => refuse "entities are nested too deeply"
  | levels + 1, e => do
    let outer ← get
    set { outer with input := ⟨e.text, e.offset⟩, started := false }
    readContentWith levels (expandInContent levels) (2 * e.text.length + 1)
    modify fun r => { r with input := outer.input, started := outer.started }

-- Reads the root element.
def readRoot : XmlM Unit := do
  if ← readStartTag maxLevels then
    readContentWith maxLevels (expandInContent maxLevels) (2 * (← rest).length + 1)

-- Passes blanks, comments and instructions.
def readMisc : Nat → XmlM Unit
  | 0 => pure ()
  | n + 1 => do
    skipSpaces
    if ← startsWith "<!--" then
      readComment
      readMisc n
    else if ← startsWith "<?" then
      readInstruction
      readMisc n

/-! The declaration of a document and its type -/

-- Passes the blanks between the parts of the declaration.
def declarationSpaces : XmlM Unit := do
  let spaces ← takeWhile isSpace
  if spaces.isEmpty then
    unless (← startsWith "?>") || (← atEnd) do refuse "expected a blank"

def readDeclaration : XmlM Unit := do
  accept "<?xml"
  declarationSpaces
  unless ← startsWith "version" do refuse "expected a version"
  let _ ← takeAttribute
  declarationSpaces
  if ← startsWith "encoding" then
    let _ ← takeAttribute
    declarationSpaces
  if ← startsWith "standalone" then
    let _ ← takeAttribute
  skipSpaces
  accept "?>"

def readQuoted : XmlM Unit := do
  let quote ← takeQuote
  let _ ← takeWhile (· != quote)
  accept (String.singleton quote)

-- Passes an external identifier, if one is here.
def readExternalId : XmlM Bool := do
  let isSystem ← startsWith "SYSTEM"
  if isSystem || (← startsWith "PUBLIC") then
    pass 6
    needSpaces
    readQuoted
    unless isSystem do
      needSpaces
      readQuoted
    return true
  return false

-- Reads the declaration of an entity. External ones are passed.
def readEntity : XmlM Unit := do
  accept "<!ENTITY"
  needSpaces
  let general := !(← startsWith "%")
  unless general do
    pass 1
    needSpaces
  let name ← takeName
  needSpaces
  if (← startsWith "\"") || (← startsWith "\x27") then
    let quote ← takeQuote
    let start ← offset
    let text ← takeWhile (· != quote)
    accept (String.singleton quote)
    modify fun r => { r with entities := r.entities ++ [⟨name, text, start⟩] }
  else
    unless ← readExternalId do refuse "expected the text of an entity"
    if general then
      skipSpaces
      if ← startsWith "NDATA" then
        pass 5
        needSpaces
        let _ ← takeName
  skipSpaces
  accept ">"

-- Reads the declarations of a document type up to its closing bracket.
def readSubset : Nat → XmlM Unit
  | 0 => pure ()
  | n + 1 => do
    if ← atEnd then return
    skipSpaces
    if ← startsWith "]" then
      pass 1
      skipSpaces
      accept ">"
    else
      if ← startsWith "<!ENTITY" then readEntity
      else if ← startsWith "<!--" then readComment
      else if ← startsWith "<?" then readInstruction
      else if (← startsWith "<!ELEMENT") || (← startsWith "<!ATTLIST")
          || (← startsWith "<!NOTATION") then
        let _ ← takeWhile (· != '>')
        accept ">"
      else refuse "unknown markup"
      readSubset n

def readDocumentType : XmlM Unit := do
  accept "<!DOCTYPE"
  needSpaces
  let _ ← takeName
  skipSpaces
  let _ ← readExternalId
  skipSpaces
  if ← startsWith ">" then
    pass 1
  else
    accept "["
    readSubset ((← rest).length + 1)

-- Reads a whole document.
def readDocument : XmlM Unit := do
  let steps := (← rest).length + 1
  if ← startsWith "\uFEFF" then pass 1
  if ← startsWith "<?xml " then readDeclaration
  readMisc steps
  if ← startsWith "<!DOCTYPE" then
    readDocumentType
    readMisc steps
  if ← startsWith "<" then readRoot
  readMisc steps
  unless ← atEnd do refuse "text behind the root element"

end XmlM

-- Reads a document; gives its root element.
def parse (text : String) : Except SyntaxError Node :=
  let cs := text.toList
  let failure (offset : Nat) (reason : String) : SyntaxError :=
    ⟨"xml", Text.position cs offset, reason⟩
  match XmlM.readDocument.run { input := ⟨cs, 0⟩ } with
  | .error e => .error (failure e.offset e.reason)
  | .ok ((), r) =>
    match r.builder.root? with
    | some root => .ok root
    | none => .error (failure (Text.byteLength cs) "the root element is missing or not closed")

end Repin.Xml
