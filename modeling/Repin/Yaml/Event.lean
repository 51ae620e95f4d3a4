import Repin.Yaml.Token
/-!
# Events of a YAML stream

The structure of a stream as a flat sequence: every scalar and alias, and the start and end of every
sequence and mapping. The reader is a pushdown automaton. What it still expects is a stack; a step
takes the topmost expectation, puts others in its place, and shows at most one event.

An omitted value is the plain scalar `~`; the value of a bare anchor or tag is the empty text.
-/
namespace Repin.Yaml

inductive Event where
  | scalar (mark : Mark) (style : ScalarStyle) (text : String)
  | reference
  | sequenceStart
  | sequenceEnd
  | mappingStart
  | mappingEnd
  deriving DecidableEq, Repr

-- What the reader expects next.
inductive Expected where
  -- A document or the end of the stream. A document may start without `---` where `bare` holds.
  | document (bare : Bool)
  -- The value of a document that was started by `---`.
  | documentContent
  | documentEnd
  -- A value. Block collections are read where `block` holds, and a sequence that is indented no
  -- further than its key where `indentless` holds.
  | node (block indentless : Bool)
  | blockEntry
  | indentlessEntry
  | blockKey
  | blockValue
  | flowEntry (first : Bool)
  -- A key, a value and the end of a mapping that is an entry of a flow sequence.
  | pairKey
  | pairValue
  | pairEnd
  | flowKey (first : Bool)
  | flowValue
  -- The value of a flow entry without a colon.
  | omittedValue
  deriving DecidableEq, Repr

-- A reader between two steps.
structure EventReader where
  tokens : List MarkedToken
  -- What is expected, the next first.
  expected : List Expected := [.document true]
  -- The anchors of the document so far.
  anchors : List String := []
  -- The tag handles that the directives of the document declare.
  handles : List String := []
  -- The events so far.
  events : Array Event := #[]

abbrev EventM := StateT EventReader (Except StreamError)

namespace EventM

-- The next token. The stream end is the last one and is never passed.
def peek : EventM MarkedToken := do
  return (← get).tokens.headD ⟨default, .streamEnd⟩

def pass : EventM Unit :=
  modify fun r => { r with tokens := r.tokens.tail }

def expect (expected : List Expected) : EventM Unit :=
  modify fun r => { r with expected := expected ++ r.expected }

def emit (event : Event) : EventM Unit :=
  modify fun r => { r with events := r.events.push event }

-- Shows an omitted value.
def omitted (mark : Mark) : EventM Unit :=
  emit (.scalar mark .plain "~")

def refuse (mark : Mark) (reason : String) : EventM α :=
  throw ⟨mark, reason⟩

-- Reads the directives in front of a document. Only the handle of the last one counts.
def readDirectives (versionSeen : Bool) : List MarkedToken → EventM Unit
  | ⟨mark, .versionDirective⟩ :: rest => do
    if versionSeen then refuse mark "a second version directive"
    pass
    modify fun r => { r with handles := [] }
    readDirectives true rest
  | ⟨_, .tagDirective handle⟩ :: rest => do
    pass
    modify fun r => { r with handles := [handle] }
    readDirectives versionSeen rest
  | _ => pure ()

-- Passes the tokens that end documents.
def passDocumentEnds : List MarkedToken → EventM Unit
  | ⟨_, .documentEnd⟩ :: rest => do
    pass
    passDocumentEnds rest
  | _ => pure ()

def readDocument (bare : Bool) : EventM Unit := do
  passDocumentEnds (← get).tokens
  let directive : Token → Bool
    | .versionDirective | .tagDirective _ | .documentStart => true
    | _ => false
  let ⟨_, next⟩ ← peek
  if next = .streamEnd then
    return
  modify fun r => { r with anchors := [] }
  if bare && !directive next then
    expect [.node true false, .documentEnd]
  else
    readDirectives false (← get).tokens
    let ⟨mark, token⟩ ← peek
    unless token = .documentStart do
      refuse mark "a document without a start"
    pass
    expect [.documentContent, .documentEnd]

def readDocumentContent : EventM Unit := do
  match ← peek with
  | ⟨mark, .versionDirective⟩ | ⟨mark, .tagDirective _⟩ | ⟨mark, .documentStart⟩
  | ⟨mark, .documentEnd⟩ | ⟨mark, .streamEnd⟩ => omitted mark
  | _ => expect [.node true false]

-- Ends a document. A directive may follow only an explicit end.
def readDocumentEnd : EventM Unit := do
  modify fun r => { r with handles := [] }
  match ← peek with
  | ⟨_, .documentEnd⟩ =>
    pass
    expect [.document true]
  | ⟨mark, .versionDirective⟩ | ⟨mark, .tagDirective _⟩ =>
    refuse mark "a directive behind a document without an explicit end"
  | _ => expect [.document false]

-- A handle between two exclamation marks has to be declared; the others always mean something.
def checkHandle (mark : Mark) (handle : String) : EventM Unit := do
  let cs := handle.toList
  let named := 2 < cs.length && cs.head? = some '!' && cs.getLast? = some '!'
  if named && !(← get).handles.contains handle then
    refuse mark "a tag handle that was not declared"

def declareAnchor (name : String) : EventM Unit :=
  modify fun r => { r with anchors := name :: r.anchors }

-- Passes an anchor and a tag, in any order; answers whether there was one.
def readProperties : EventM Bool := do
  match ← peek with
  | ⟨mark, .anchor name⟩ =>
    pass
    declareAnchor name
    if let ⟨_, .tag handle⟩ ← peek then
      pass
      checkHandle mark handle
    return true
  | ⟨mark, .tag handle⟩ =>
    pass
    checkHandle mark handle
    if let ⟨_, .anchor name⟩ ← peek then
      pass
      declareAnchor name
    return true
  | _ => return false

def readNode (block indentless : Bool) : EventM Unit := do
  if let ⟨mark, .reference name⟩ ← peek then
    pass
    unless (← get).anchors.contains name do
      refuse mark "an unknown anchor"
    emit .reference
    return
  let hasProperties ← readProperties
  let ⟨mark, token⟩ ← peek
  match token with
  | .scalar style text =>
    pass
    emit (.scalar mark style text)
  | .flowSequenceStart =>
    pass
    emit .sequenceStart
    expect [.flowEntry true]
  | .flowMappingStart =>
    pass
    emit .mappingStart
    expect [.flowKey true]
  | _ =>
    if indentless && token = .blockEntry then
      emit .sequenceStart
      expect [.indentlessEntry]
    else if block && token = .blockSequenceStart then
      pass
      emit .sequenceStart
      expect [.blockEntry]
    else if block && token = .blockMappingStart then
      pass
      emit .mappingStart
      expect [.blockKey]
    else if hasProperties then
      emit (.scalar mark .plain "")
    else
      refuse mark "a value is missing"

def readBlockEntry : EventM Unit := do
  match ← peek with
  | ⟨_, .blockEnd⟩ =>
    pass
    emit .sequenceEnd
  | ⟨_, .blockEntry⟩ =>
    pass
    match ← peek with
    | ⟨mark, .blockEntry⟩ | ⟨mark, .blockEnd⟩ =>
      omitted mark
      expect [.blockEntry]
    | _ => expect [.node true false, .blockEntry]
  | ⟨mark, _⟩ => refuse mark "an entry of a block sequence without its indicator"

def readIndentlessEntry : EventM Unit := do
  match ← peek with
  | ⟨_, .blockEntry⟩ =>
    pass
    match ← peek with
    | ⟨mark, .blockEntry⟩ | ⟨mark, .key⟩ | ⟨mark, .value⟩ | ⟨mark, .blockEnd⟩ =>
      omitted mark
      expect [.indentlessEntry]
    | _ => expect [.node true false, .indentlessEntry]
  | _ => emit .sequenceEnd

def readBlockKey : EventM Unit := do
  match ← peek with
  | ⟨_, .key⟩ =>
    pass
    match ← peek with
    | ⟨mark, .key⟩ | ⟨mark, .value⟩ | ⟨mark, .blockEnd⟩ =>
      omitted mark
      expect [.blockValue]
    | _ => expect [.node true true, .blockValue]
  | ⟨mark, .value⟩ =>
    omitted mark
    expect [.blockValue]
  | ⟨_, .blockEnd⟩ =>
    pass
    emit .mappingEnd
  | ⟨mark, _⟩ => refuse mark "an entry of a block mapping without its key"

def readBlockValue : EventM Unit := do
  match ← peek with
  | ⟨mark, .value⟩ =>
    pass
    match ← peek with
    | ⟨_, .key⟩ | ⟨_, .value⟩ | ⟨_, .blockEnd⟩ =>
      omitted mark
      expect [.blockKey]
    | _ => expect [.node true true, .blockKey]
  | ⟨mark, _⟩ =>
    omitted mark
    expect [.blockKey]

-- Passes the comma in front of an entry that is not the first.
def passComma (first : Bool) : EventM Unit := do
  unless first do
    match ← peek with
    | ⟨_, .flowEntry⟩ => pass
    | ⟨mark, _⟩ => refuse mark "a comma or the end of a flow collection is missing"

def readFlowEntry (first : Bool) : EventM Unit := do
  let isEnd : EventM Bool := return (← peek).token = .flowSequenceEnd
  unless ← isEnd do passComma first
  if ← isEnd then
    pass
    emit .sequenceEnd
  else if (← peek).token = .key then
    pass
    emit .mappingStart
    expect [.pairKey, .flowEntry false]
  else
    expect [.node false false, .flowEntry false]

def readPairKey : EventM Unit := do
  match ← peek with
  | ⟨mark, .value⟩ | ⟨mark, .flowEntry⟩ | ⟨mark, .flowSequenceEnd⟩ =>
    pass
    omitted mark
    expect [.pairValue]
  | _ => expect [.node false false, .pairValue]

def readPairValue : EventM Unit := do
  match ← peek with
  | ⟨_, .value⟩ =>
    pass
    match ← peek with
    | ⟨mark, .flowEntry⟩ | ⟨mark, .flowSequenceEnd⟩ =>
      omitted mark
      expect [.pairEnd]
    | _ => expect [.node false false, .pairEnd]
  | ⟨mark, _⟩ =>
    omitted mark
    expect [.pairEnd]

def readFlowKey (first : Bool) : EventM Unit := do
  let isEnd : EventM Bool := return (← peek).token = .flowMappingEnd
  unless ← isEnd do passComma first
  match ← peek with
  | ⟨_, .flowMappingEnd⟩ =>
    pass
    emit .mappingEnd
  | ⟨_, .key⟩ =>
    pass
    match ← peek with
    | ⟨mark, .value⟩ | ⟨mark, .flowEntry⟩ | ⟨mark, .flowMappingEnd⟩ =>
      omitted mark
      expect [.flowValue]
    | _ => expect [.node false false, .flowValue]
  | ⟨mark, .value⟩ =>
    omitted mark
    expect [.flowValue]
  | _ => expect [.node false false, .omittedValue]

def readFlowValue : EventM Unit := do
  match ← peek with
  | ⟨mark, .value⟩ =>
    pass
    match ← peek with
    | ⟨_, .flowEntry⟩ | ⟨_, .flowMappingEnd⟩ =>
      omitted mark
      expect [.flowKey false]
    | _ => expect [.node false false, .flowKey false]
  | ⟨mark, _⟩ =>
    omitted mark
    expect [.flowKey false]

def readOmittedValue : EventM Unit := do
  omitted (← peek).mark
  expect [.flowKey false]

-- Reads what is expected.
def read : Expected → EventM Unit
  | .document bare => readDocument bare
  | .documentContent => readDocumentContent
  | .documentEnd => readDocumentEnd
  | .node block indentless => readNode block indentless
  | .blockEntry => readBlockEntry
  | .indentlessEntry => readIndentlessEntry
  | .blockKey => readBlockKey
  | .blockValue => readBlockValue
  | .flowEntry first => readFlowEntry first
  | .pairKey => readPairKey
  | .pairValue => readPairValue
  | .pairEnd => emit .mappingEnd
  | .flowKey first => readFlowKey first
  | .flowValue => readFlowValue
  | .omittedValue => readOmittedValue

-- Takes steps until nothing is expected.
def readAll : Nat → EventM Unit
  | 0 => pure ()
  | steps + 1 => do
    match (← get).expected with
    | [] => pure ()
    | next :: rest =>
      modify fun r => { r with expected := rest }
      read next
      readAll steps

end EventM

namespace Event

-- The events of a stream. Between two tokens that are passed lie at most four steps: those that
-- end a value, show an omitted one, and turn to the next.
def ofTokens (tokens : List MarkedToken) : Except StreamError (List Event) := do
  let ((), r) ← (EventM.readAll (6 * tokens.length + 6)).run { tokens }
  return r.events.toList

end Event
end Repin.Yaml
