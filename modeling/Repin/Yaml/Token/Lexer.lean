import Repin.Yaml.Token
/-!
# Cutting a YAML stream into tokens

The lexer keeps the columns of the open blocks, and the places at which a simple key may have
started: whether a scalar is a key shows only at the colon behind it, and then the tokens that open
the mapping are put in front of the scalar.
-/
namespace Repin.Yaml

-- What is left of a stream and where it starts.
structure Cursor where
  rest : List Char
  mark : Mark
  -- Whether only spaces and tabs stand between the start of the line and here.
  leading : Bool

namespace Cursor

def start (cs : List Char) : Cursor :=
  ⟨cs, ⟨0, 1, 0⟩, true⟩

-- The character some places ahead; NUL past the end.
def peek (c : Cursor) (ahead : Nat) : Char :=
  c.rest.getD ahead '\x00'

-- Passes one character. A carriage return before a line feed does not end the line yet.
def skip (c : Cursor) : Cursor :=
  match c.rest with
  | [] => c
  | x :: rest =>
    let m := c.mark
    if x = '\n' ∨ (x = '\r' ∧ rest.head? ≠ some '\n') then
      ⟨rest, ⟨m.index + 1, m.line + 1, 0⟩, true⟩
    else
      ⟨rest, ⟨m.index + 1, m.line, m.col + 1⟩, c.leading && (isSpace x || x == '\r')⟩

def skipMany (c : Cursor) : Nat → Cursor
  | 0 => c
  | n + 1 => c.skip.skipMany n

end Cursor

-- A place at which a simple key may have started.
structure SimpleKey where
  possible : Bool := false
  -- At this column of a block, only a key can stand.
  required : Bool := false
  -- The number of tokens in front of it.
  tokenNumber : Nat := 0
  mark : Mark := default

-- The column outside an open block, and whether the block ends with a token.
structure Indent where
  outer : Int
  isBlock : Bool

-- What a flow sequence knows of a mapping written without braces as one of its entries.
inductive EntryMapping where
  | possible
  | inside
  deriving DecidableEq

structure Lexer where
  cursor : Cursor
  tokens : Array MarkedToken := #[]
  -- Where a colon right behind a key may be followed by any character.
  adjacentValueAt : Nat := 0
  simpleKeyAllowed : Bool := true
  -- One place for each open flow collection and one for the blocks around; the innermost first.
  simpleKeys : List SimpleKey := [{}]
  indent : Int := -1
  indents : List Indent := []
  flowLevel : Nat := 0
  flowMappingStarted : Bool := false
  -- One state for each open flow sequence, the innermost first.
  entryMappings : List EntryMapping := []

abbrev LexM := StateT Lexer (Except StreamError)

namespace LexM

def cursor : LexM Cursor := do return (← get).cursor
def mark : LexM Mark := do return (← get).cursor.mark
def peek (ahead : Nat) : LexM Char := do return (← get).cursor.peek ahead
def inFlow : LexM Bool := do return 0 < (← get).flowLevel
def column : LexM Int := do return (← get).cursor.mark.col

-- Refuses the stream at a place.
def refuseAt (mark : Mark) (reason : String) : LexM α :=
  throw ⟨mark, reason⟩

-- Refuses the stream where the lexer stands.
def refuse (reason : String) : LexM α := do
  refuseAt (← mark) reason

def skipMany (n : Nat) : LexM Unit :=
  modify fun l => { l with cursor := l.cursor.skipMany n }

def skip : LexM Unit :=
  skipMany 1

-- Passes and gives the characters of a class.
def takeWhile (p : Char → Bool) : LexM (List Char) := do
  let taken := (← cursor).rest.takeWhile p
  skipMany taken.length
  return taken

def skipWhile (p : Char → Bool) : LexM Unit := do
  let _ ← takeWhile p

-- Repeats a step as long as it asks for it, and at most a number of times.
def repeatWhile : Nat → LexM Bool → LexM Unit
  | 0, _ => pure ()
  | n + 1, step => do
    if ← step then repeatWhile n step

-- Repeats a step that passes a character whenever it asks to be repeated.
def repeatStep (step : LexM Bool) : LexM Unit := do
  repeatWhile ((← cursor).rest.length + 1) step

-- Passes a line break, if one is here.
def skipBreak : LexM Unit := do
  if (← peek 0) == '\r' && (← peek 1) == '\n' then skipMany 2
  else if isBreak (← peek 0) then skip

def push (mark : Mark) (token : Token) : LexM Unit :=
  modify fun l => { l with tokens := l.tokens.push ⟨mark, token⟩ }

-- Puts a token in front of those behind the first `number`.
def insertAt (number : Nat) (mark : Mark) (token : Token) : LexM Unit :=
  modify fun l => { l with tokens := l.tokens.insertIdxIfInBounds number ⟨mark, token⟩ }

def allowSimpleKey : LexM Unit := modify fun l => { l with simpleKeyAllowed := true }
def disallowSimpleKey : LexM Unit := modify fun l => { l with simpleKeyAllowed := false }

def skipComment : LexM Unit :=
  skipWhile (!isBreakOrEnd ·)

-- What was passed between a token and the end of its line.
structure Passed where
  tab : Bool
  space : Bool

-- Passes spaces, tabs if they are allowed, and a comment, which needs one of them in front.
def skipToEndOfLine (tabs : Bool) : LexM Passed := do
  let taken ← takeWhile fun c => c == ' ' || (tabs && c == '\t')
  let passed : Passed := ⟨taken.contains '\t', taken.contains ' '⟩
  if (← peek 0) == '#' then
    if !passed.tab && !passed.space then
      refuse "a comment needs a blank in front"
    skipComment
  return passed

-- Passes the blanks, line breaks and comments behind a key indicator; a blank or a break comes
-- first.
def skipYamlSpace : LexM Unit := do
  let c ← peek 0
  unless c == ' ' || isBreak c do
    refuse "expected a blank"
  repeatStep do
    match ← peek 0 with
    | ' ' => skip; return true
    | '\n' | '\r' =>
      skipBreak
      unless ← inFlow do allowSimpleKey
      return true
    | '#' => skipComment; return true
    | _ => return false

-- Passes everything between two tokens. Tabs may not indent a block.
def skipToNextToken : LexM Unit :=
  repeatStep do
    let l ← get
    match l.cursor.peek 0 with
    | '\t' =>
      if !l.indents.isEmpty && l.cursor.leading && (l.cursor.mark.col : Int) < l.indent then
        let _ ← skipToEndOfLine true
        unless isBreakOrEnd (← peek 0) do
          refuse "a tab indents a block"
      else
        skip
      return true
    | ' ' => skip; return true
    | '\n' | '\r' =>
      skipBreak
      if l.flowLevel = 0 then allowSimpleKey
      return true
    | '#' => skipComment; return true
    | _ => return false

-- Gives up keys that cannot end in a colon any more: outside flow collections a key lies on one
-- line and is no longer than 1024 characters.
def dropStaleKeys : LexM Unit := do
  let l ← get
  if l.flowLevel = 0 then
    let here := l.cursor.mark
    let stale (k : SimpleKey) : Bool :=
      k.possible && (k.mark.line < here.line || k.mark.index + 1024 < here.index)
    if l.simpleKeys.any (fun k => stale k && k.required) then
      refuse "a key without a colon"
    let keys := l.simpleKeys.map fun k => if stale k then { k with possible := false } else k
    set { l with simpleKeys := keys }

-- Remembers that a key may start here.
def saveSimpleKey : LexM Unit :=
  modify fun l =>
    if l.simpleKeyAllowed then
      let required := l.flowLevel = 0 && l.indent = l.cursor.mark.col
        && (l.indents.head?.map (·.isBlock)).getD false
      { l with simpleKeys :=
          { possible := true, required, tokenNumber := l.tokens.size, mark := l.cursor.mark }
            :: l.simpleKeys.tail }
    else
      l

-- Gives up the innermost key.
def removeSimpleKey : LexM Unit := do
  let l ← get
  match l.simpleKeys with
  | [] => pure ()
  | k :: ks =>
    if k.possible && k.required then
      refuse "a key without a colon"
    set { l with simpleKeys := { k with possible := false } :: ks }

-- Closes one block that lies further to the right than a column.
def unrollStep (column : Int) : LexM Bool := do
  let l ← get
  if l.indent ≤ column then
    return false
  match l.indents with
  | [] => return false
  | i :: is =>
    set { l with indent := i.outer, indents := is }
    if i.isBlock then
      push l.cursor.mark .blockEnd
    return true

-- Closes the blocks that lie further to the right than a column.
def unrollIndent (column : Int) : LexM Unit := do
  unless ← inFlow do
    repeatWhile ((← get).indents.length + 1) (unrollStep column)

-- Closes the innermost indentations that belong to no block.
def unrollNonBlocks : LexM Unit :=
  modify fun l =>
    let (open_, kept) := l.indents.span (!·.isBlock)
    { l with indents := kept, indent := (open_.getLast?.map (·.outer)).getD l.indent }

-- Opens a block at a column, if none is open there; its token goes in front of those behind the
-- first `number`, or to the end.
def rollIndent (column : Nat) (number : Option Nat) (token : Token) (mark : Mark) : LexM Unit := do
  unless ← inFlow do
    modify fun l =>
      match l.indents with
      | i :: is =>
        if l.indent ≤ column && !i.isBlock then { l with indent := i.outer, indents := is } else l
      | [] => l
    let l ← get
    if l.indent < column then
      set { l with indent := column, indents := ⟨l.indent, true⟩ :: l.indents }
      match number with
      | some n => insertAt n mark token
      | none => push mark token

-- Opens an indentation of one column that belongs to no block.
def rollOneColumn : LexM Unit :=
  modify fun l =>
    if l.flowLevel = 0 && (l.indents.head?.map (·.isBlock)).getD false then
      { l with indent := l.indent + 1, indents := ⟨l.indent, false⟩ :: l.indents }
    else
      l

-- Ends a mapping that is an entry of a flow sequence.
def endEntryMapping (mark : Mark) : LexM Unit := do
  let l ← get
  match l.entryMappings with
  | .inside :: states =>
    set { l with flowMappingStarted := false, entryMappings := .possible :: states }
    push mark .flowMappingEnd
  | _ => pure ()

/-! Directives, tags and anchors -/

-- Passes an escaped byte sequence of a URI.
def scanUriEscape (start : Mark) : LexM Unit := do
  let byteAt : LexM Nat := do
    let (high, low) := (← peek 1, ← peek 2)
    unless (← peek 0) == '%' && isHex high && isHex low do
      refuseAt start "an invalid escape sequence in a tag"
    return hexValue high * 16 + hexValue low
  let first ← byteAt
  let width ←
    if first < 0x80 then pure 1
    else if first / 0x20 = 6 then pure 2
    else if first / 0x10 = 14 then pure 3
    else if first / 8 = 30 then pure 4
    else refuseAt start "an incorrect leading byte in a tag"
  skipMany 3
  let rec more (code : Nat) : Nat → LexM Nat
    | 0 => return code
    | n + 1 => do
      let byte ← byteAt
      unless byte / 0x40 = 2 do
        refuseAt start "an incorrect trailing byte in a tag"
      skipMany 3
      more (code * 256 + byte) n
  let code ← more first (width - 1)
  unless code.isValidChar do
    refuseAt start "an invalid code point in a tag"

-- Passes the characters of a class and escapes among them; gives the number of characters.
def scanUri (start : Mark) (p : Char → Bool) : LexM Nat := do
  let before := (← mark).index
  repeatStep do
    let c ← peek 0
    if !p c then return false
    if c == '%' then scanUriEscape start else skip
    return true
  return (← mark).index - before

-- Reads the handle of a tag, from its `!` on.
def scanTagHandle (directive : Bool) (start : Mark) : LexM (List Char) := do
  unless (← peek 0) == '!' do
    refuseAt start "a tag without an exclamation mark"
  skip
  let name ← takeWhile isNameChar
  if (← peek 0) == '!' then
    skip
    return '!' :: name ++ ['!']
  if directive && !name.isEmpty then
    refuseAt start "a tag handle that is not closed"
  return '!' :: name

-- Passes the URI of a tag directive.
def scanTagUri (start : Mark) : LexM Unit := do
  let c ← peek 0
  if c == '!' then skip
  else if !isTagChar c then refuseAt start "an invalid global tag character"
  else if c == '%' then scanUriEscape start
  else skip
  let _ ← scanUri start isUriChar

-- Reads a tag. Only its handle is kept; `none` for a tag that needs no handle.
def scanTag : LexM Token := do
  let start ← mark
  let handle ←
    if (← peek 1) == '<' then do
      skipMany 2
      let _ ← scanUri start isUriChar
      unless (← peek 0) == '>' do
        refuseAt start "a verbatim tag that is not closed"
      skip
      pure []
    else do
      let handle ← scanTagHandle false start
      let named := 2 ≤ handle.length && handle.getLast? = some '!'
      let length ← scanUri start isTagChar
      if named && length = 0 then
        refuseAt start "a tag without a name"
      if named then pure handle
      else if handle.length = 1 && length = 0 then pure []
      else pure ['!']
  let c ← peek 0
  unless isSpaceOrEnd c || ((← inFlow) && isFlow c) do
    refuseAt start "a tag that is not followed by a blank"
  return .tag (String.ofList handle)

-- Reads a number of a version directive.
def scanVersionNumber (start : Mark) : LexM Unit := do
  let digits ← takeWhile Char.isDigit
  if digits.isEmpty then refuseAt start "a version number is missing"
  if 9 < digits.length then refuseAt start "a version number is too long"

def scanDirective : LexM Token := do
  let start ← mark
  skip
  let name ← takeWhile isNameChar
  if name.isEmpty then refuseAt start "a directive without a name"
  unless isSpaceOrEnd (← peek 0) do
    refuseAt start "an unexpected character in the name of a directive"
  let token ←
    match String.ofList name with
    | "YAML" => do
      skipWhile isSpace
      scanVersionNumber start
      unless (← peek 0) == '.' do
        refuseAt start "a version without a dot"
      skip
      scanVersionNumber start
      pure Token.versionDirective
    | "TAG" => do
      skipWhile isSpace
      let handle ← scanTagHandle true start
      skipWhile isSpace
      scanTagUri start
      unless isSpaceOrEnd (← peek 0) do
        refuseAt start "a tag directive that is not followed by a blank"
      pure (Token.tagDirective (String.ofList handle))
    | _ => do
      skipComment
      pure (Token.tagDirective "")
  let _ ← skipToEndOfLine true
  unless isBreakOrEnd (← peek 0) do
    refuseAt start "a directive that does not end with its line"
  skipBreak
  return token

def scanAnchor (isAlias : Bool) : LexM Token := do
  let start ← mark
  skip
  let name ← takeWhile isAnchorChar
  if name.isEmpty then refuseAt start "an anchor without a name"
  let name := String.ofList name
  return if isAlias then .reference name else .anchor name

/-! Block scalars -/

-- What happens to the line breaks at the end of a block scalar.
inductive Chomping where
  | strip
  | clip
  | keep
  deriving DecidableEq

-- Reads the chomping indicator, if there is one.
def scanChomping : LexM (Option Chomping) := do
  match ← peek 0 with
  | '+' => skip; return some .keep
  | '-' => skip; return some .strip
  | _ => return none

-- Reads the indentation indicator, if there is one.
def scanIncrement (start : Mark) : LexM (Option Nat) := do
  let c ← peek 0
  if c.isDigit then
    if c == '0' then refuseAt start "an indentation indicator of zero"
    skip
    return some (c.toNat - 48)
  return none

-- Passes blank lines and the indentation of the next line, as far as a column; gives the number of
-- blank lines.
def skipIndentation (column : Nat) : LexM Nat := do
  let lines ← repeatCount (← cursor).rest.length 0
  return lines
where
  repeatCount : Nat → Nat → LexM Nat
    | 0, lines => skipSpaces *> pure lines
    | n + 1, lines => do
      skipSpaces
      if isBreak (← peek 0) then
        skipBreak
        repeatCount n (lines + 1)
      else
        return lines
  skipSpaces : LexM Unit := do
    let c ← cursor
    skipMany (c.rest.take (column - c.mark.col) |>.takeWhile (· == ' ')).length

-- Passes blank lines and the whole indentation of the next line; gives the number of blank lines
-- and the greatest column reached.
def skipFirstIndentation : LexM (Nat × Nat) := do
  repeatCount (← cursor).rest.length 0 0
where
  repeatCount : Nat → Nat → Nat → LexM (Nat × Nat)
    | 0, lines, column => return (lines, column)
    | n + 1, lines, column => do
      skipWhile (· == ' ')
      let column := max column (← mark).col
      if isBreak (← peek 0) then
        skipBreak
        repeatCount n (lines + 1) column
      else
        return (lines, column)

-- A block scalar while its lines are read.
structure BlockText where
  -- The text so far, in reverse.
  text : List Char := []
  -- Whether a line break is owed in front of the next line.
  leadingBreak : Bool := false
  -- The number of blank lines owed in front of the next line.
  trailingBreaks : Nat := 0
  -- Whether the last line started with a blank.
  leadingBlank : Bool := false

def BlockText.appendBreaks (t : BlockText) (n : Nat) : BlockText :=
  { t with text := List.replicate n '\n' ++ t.text }

-- Reads a line of a block scalar, with the break and the blank lines behind it.
def scanBlockLine (literal : Bool) (column : Nat) (t : BlockText) : LexM BlockText := do
  let blank := isSpace (← peek 0)
  let folds := !literal && t.leadingBreak && !t.leadingBlank && !blank
  let t :=
    if folds then
      if t.trailingBreaks = 0 then { t with text := ' ' :: t.text }
      else t.appendBreaks t.trailingBreaks
    else
      t.appendBreaks (t.trailingBreaks + if t.leadingBreak then 1 else 0)
  let line ← takeWhile (!isBreakOrEnd ·)
  let t : BlockText :=
    { text := line.reverse ++ t.text, leadingBreak := false, trailingBreaks := 0,
      leadingBlank := blank }
  if isEnd (← peek 0) then
    return t
  skipBreak
  let breaks ← skipIndentation column
  return { t with leadingBreak := true, trailingBreaks := breaks }

-- Whether three characters and a blank behind them stand here.
def atDocumentMark (c : Char) : LexM Bool := do
  return (← peek 0) == c && (← peek 1) == c && (← peek 2) == c && isSpaceOrEnd (← peek 3)

-- Reads the lines of a block scalar that stand at its column.
def scanBlockLines (literal : Bool) (column : Nat) : Nat → BlockText → LexM BlockText
  | 0, t => return t
  | n + 1, t => do
    if (← mark).col ≠ column || isEnd (← peek 0) then return t
    if column = 0 then
      if ← atDocumentMark '.' then return t
    let t ← scanBlockLine literal column t
    if isEnd (← peek 0) && !t.leadingBreak then return t
    scanBlockLines literal column n t

def scanBlockScalar (literal : Bool) : LexM MarkedToken := do
  let start ← mark
  let style : ScalarStyle := if literal then .literal else .folded
  skip
  unrollNonBlocks
  let (chomping, increment) ←
    match ← scanChomping with
    | some chomping => do pure (chomping, ← scanIncrement start)
    | none => do
      let increment ← scanIncrement start
      if increment.isSome then
        pure ((← scanChomping).getD .clip, increment)
      else
        pure (.clip, none)
  let _ ← skipToEndOfLine true
  unless isBreakOrEnd (← peek 0) do
    refuseAt start "a block scalar whose first line is not empty"
  let headerBreak := isBreak (← peek 0)
  skipBreak
  if (← peek 0) == '\t' then
    refuseAt start "a block scalar that starts with a tab"
  let outer := (← get).indent
  let (breaks, column) ←
    match increment with
    | some n => do
      let column := if 0 ≤ outer then (outer + n).toNat else n
      pure (← skipIndentation column, column)
    | none => do
      let (breaks, deepest) ← skipFirstIndentation
      let column := max deepest (outer + 1).toNat
      pure (breaks, if 0 < outer then max column 1 else column)
  if isEnd (← peek 0) then
    let text :=
      if chomping = .strip || (← mark).line = start.line then ""
      else if chomping = .keep && 0 < breaks then String.ofList (List.replicate breaks '\n')
      else if headerBreak then "\n"
      else ""
    return ⟨start, .scalar style text⟩
  let contentStart ← mark
  if contentStart.col < column && outer < contentStart.col then
    refuse "a line of a block scalar is not indented far enough"
  let t ← scanBlockLines literal column ((← cursor).rest.length + 1) { trailingBreaks := breaks }
  let endsStream := isEnd (← peek 0)
  let stop ← mark
  let tail :=
    if chomping = .strip then []
    else
      (if t.leadingBreak then ['\n'] else [])
        ++ (if endsStream && max column 1 ≤ stop.col then ['\n'] else [])
        ++ (if chomping = .keep then List.replicate t.trailingBreaks '\n' else [])
  return ⟨contentStart, .scalar style (String.ofList (t.text.reverse ++ tail))⟩

/-! Flow scalars -/

-- A plain or quoted scalar while it is read.
structure FlowText where
  -- The text so far, in reverse.
  text : List Char := []
  -- Blanks that count only if more text follows on the line, in reverse.
  blanks : List Char := []
  -- Whether a line break was passed that has not been written yet.
  leadingBreak : Bool := false
  -- The number of further line breaks passed.
  trailingBreaks : Nat := 0

-- Writes the line breaks passed: one is folded into a space, of more the first is dropped. Without
-- a first one, after an escaped line break, all count.
def FlowText.fold (t : FlowText) : FlowText :=
  let folded :=
    if t.leadingBreak && t.trailingBreaks = 0 then [' '] else List.replicate t.trailingBreaks '\n'
  { t with text := folded ++ t.text, leadingBreak := false, trailingBreaks := 0 }

-- The character of an escape, or the number of hexadecimal digits that give it.
def escapeOf? : Char → Option (Char ⊕ Nat)
  | '0' => some (.inl '\x00')
  | 'a' => some (.inl '\x07')
  | 'b' => some (.inl '\x08')
  | 't' | '\t' => some (.inl '\t')
  | 'n' => some (.inl '\n')
  | 'v' => some (.inl '\x0b')
  | 'f' => some (.inl '\x0c')
  | 'r' => some (.inl '\r')
  | 'e' => some (.inl '\x1b')
  | ' ' => some (.inl ' ')
  | '"' => some (.inl '"')
  | '/' => some (.inl '/')
  | '\\' => some (.inl '\\')
  | 'N' => some (.inl '\u0085')
  | '_' => some (.inl '\u00a0')
  | 'L' => some (.inl '\u2028')
  | 'P' => some (.inl '\u2029')
  | 'x' => some (.inr 2)
  | 'u' => some (.inr 4)
  | 'U' => some (.inr 8)
  | _ => none

-- Reads an escape, from its backslash on.
def scanEscape (start : Mark) : LexM Char := do
  match escapeOf? (← peek 1) with
  | none => refuseAt start "an unknown escape character"
  | some (.inl c) => skipMany 2; return c
  | some (.inr length) =>
    skipMany 2
    let digits := (← cursor).rest.take length
    unless digits.length = length && digits.all isHex do
      refuseAt start "an escape without its hexadecimal digits"
    let code := digits.foldl (fun n c => n * 16 + hexValue c) 0
    unless code.isValidChar do
      refuseAt start "an escape of no character"
    skipMany length
    return Char.ofNat code

-- Reads one character of a quoted scalar that is neither blank nor its closing quote. Answers
-- whether to go on, and whether the line ended with an escaped break.
def scanQuotedChar (single : Bool) (start : Mark) (t : FlowText) : LexM (FlowText × Bool × Bool) := do
  let c ← peek 0
  let next ← peek 1
  if isSpaceOrEnd c then
    return (t, false, false)
  if single then
    if c == Char.ofNat 39 then
      if next == c then
        skipMany 2
        return ({ t with text := c :: t.text }, true, false)
      return (t, false, false)
  else
    if c == '"' then return (t, false, false)
    if c == '\\' then
      if isBreak next then
        skip
        skipBreak
        return (t, false, true)
      return ({ t with text := (← scanEscape start) :: t.text }, true, false)
  skip
  return ({ t with text := c :: t.text }, true, false)

-- Reads the characters of a quoted scalar up to a blank, its closing quote or an escaped line
-- break; answers whether it was the last.
def scanQuotedChars (single : Bool) (start : Mark) : Nat → FlowText → LexM (FlowText × Bool)
  | 0, t => return (t, false)
  | n + 1, t => do
    let (t, more, escapedBreak) ← scanQuotedChar single start t
    if more then scanQuotedChars single start n t else return (t, escapedBreak)

-- Passes the blanks and line breaks inside a quoted scalar; `broken` tells whether a break has been
-- passed on the way.
def scanQuotedBlanks : Nat → Bool → FlowText → LexM (FlowText × Bool)
  | 0, broken, t => return (t, broken)
  | n + 1, broken, t => do
    let c ← peek 0
    if isSpace c then
      if broken then
        if c == '\t' && (← column) < (← get).indent then
          refuse "a tab indents a quoted scalar"
        skip
        scanQuotedBlanks n broken t
      else
        skip
        scanQuotedBlanks n broken { t with blanks := c :: t.blanks }
    else if isBreak c then
      skipBreak
      if broken then
        scanQuotedBlanks n true { t with trailingBreaks := t.trailingBreaks + 1 }
      else
        scanQuotedBlanks n true { t with blanks := [], leadingBreak := true }
    else
      return (t, broken)

def atDocumentIndicator : LexM Bool := do
  return (← atDocumentMark '-') || (← atDocumentMark '.')

-- Reads a quoted scalar up to its closing quote.
def scanQuotedParts (single : Bool) (start : Mark) : Nat → FlowText → LexM FlowText
  | 0, t => return t
  | n + 1, t => do
    if (← mark).col = 0 then
      if ← atDocumentIndicator then
        refuseAt start "a document indicator inside a quoted scalar"
    if isEnd (← peek 0) then
      refuseAt start "a quoted scalar that is not closed"
    if (← column) < (← get).indent then
      refuseAt start "a quoted scalar that is not indented far enough"
    let length := (← cursor).rest.length + 1
    let (t, escapedBreak) ← scanQuotedChars single start length t
    if (← peek 0) == (if single then Char.ofNat 39 else '"') then
      return t
    let (t, broken) ← scanQuotedBlanks length escapedBreak t
    let t := if broken then t.fold else { t with text := t.blanks ++ t.text }
    scanQuotedParts single start n { t with blanks := [] }

def scanQuoted (single : Bool) : LexM MarkedToken := do
  let start ← mark
  skip
  let t ← scanQuotedParts single start ((← cursor).rest.length + 1) {}
  skip
  let _ ← skipToEndOfLine true
  let c ← peek 0
  let inFlow ← inFlow
  let fits :=
    isBreakOrEnd c || (inFlow && (c == ',' || c == '\x7d' || c == ']' || c == ':'))
      || (c == ':' && !inFlow && start.line == (← mark).line)
  unless fits do
    refuse "text behind a quoted scalar"
  let style : ScalarStyle := if single then .singleQuoted else .doubleQuoted
  return ⟨start, .scalar style (String.ofList t.text.reverse)⟩

-- Whether the character here can be part of a plain scalar; it is no blank.
def canBePlain : LexM Bool := do
  let c ← peek 0
  let next ← peek 1
  let inFlow ← inFlow
  if c == ':' && (isSpaceOrEnd next || (inFlow && isFlow next)) then return false
  return !(inFlow && isFlow c)

-- Reads the characters of a plain scalar up to a blank or an indicator.
def scanPlainChars : Nat → FlowText → LexM FlowText
  | 0, t => return t
  | n + 1, t => do
    let c ← peek 0
    if isSpaceOrEnd c then return t
    unless ← canBePlain do return t
    skip
    scanPlainChars n { t with text := c :: t.text }

-- Passes the blanks and line breaks inside a plain scalar; `broken` tells whether only blanks have
-- been passed since the start of the line.
def scanPlainBlanks (start : Mark) (indent : Int) : Nat → Bool → FlowText → LexM (FlowText × Bool)
  | 0, broken, t => return (t, broken)
  | n + 1, broken, t => do
    let c ← peek 0
    if isSpace c then
      if !broken then
        skip
        scanPlainBlanks start indent n broken { t with blanks := c :: t.blanks }
      else if c == '\t' && (← column) < indent then
        let _ ← skipToEndOfLine true
        unless isBreakOrEnd (← peek 0) do
          refuseAt start "a tab inside a plain scalar"
        scanPlainBlanks start indent n broken t
      else
        skip
        scanPlainBlanks start indent n broken t
    else if isBreak c then
      skipBreak
      if broken then
        scanPlainBlanks start indent n true { t with trailingBreaks := t.trailingBreaks + 1 }
      else
        scanPlainBlanks start indent n true { t with blanks := [], leadingBreak := true }
    else
      return (t, broken)

-- Reads the lines of a plain scalar; answers whether it ended at the start of a line.
def scanPlainParts (start : Mark) (indent : Int) : Nat → Bool → FlowText → LexM (FlowText × Bool)
  | 0, broken, t => return (t, broken)
  | n + 1, broken, t => do
    if (← mark).col = 0 then
      if ← atDocumentIndicator then return (t, broken)
    if (← peek 0) == '#' then return (t, broken)
    if (← inFlow) && (← peek 0) == '-' && isFlow (← peek 1) then
      refuse "a hyphen in front of a flow indicator"
    let length := (← cursor).rest.length + 1
    let (t, broken) ←
      if !isSpaceOrEnd (← peek 0) && (← canBePlain) then do
        let t := if broken then t.fold else { t with text := t.blanks ++ t.text, blanks := [] }
        pure (← scanPlainChars length t, false)
      else
        pure (t, broken)
    unless isSpace (← peek 0) || isBreak (← peek 0) do return (t, broken)
    let (t, broken) ← scanPlainBlanks start indent length broken t
    if !(← inFlow) && (← column) < indent then return (t, broken)
    scanPlainParts start indent n broken t

def scanPlain : LexM MarkedToken := do
  unrollNonBlocks
  let indent := (← get).indent + 1
  let start ← mark
  if (← inFlow) && (start.col : Int) < indent then
    refuseAt start "a flow collection that is not indented far enough"
  let (t, broken) ←
    scanPlainParts start indent ((← cursor).rest.length + 1) (← cursor).leading {}
  if broken then allowSimpleKey
  if t.text.isEmpty then refuseAt start "an empty plain scalar"
  return ⟨start, .scalar .plain (String.ofList t.text.reverse)⟩

/-! Tokens -/

-- Reads a token that may be a simple key; another one may start behind it if `allowed`.
def fetchKeyable (allowed : Bool) (scan : LexM MarkedToken) : LexM Unit := do
  saveSimpleKey
  modify fun l => { l with simpleKeyAllowed := allowed }
  let t ← scan
  push t.mark t.token

def fetchTagOrAnchor (scan : LexM Token) : LexM Unit := do
  let start ← mark
  fetchKeyable false do return ⟨start, ← scan⟩

def fetchQuoted (single : Bool) : LexM Unit := do
  saveSimpleKey
  disallowSimpleKey
  let t ← scanQuoted single
  skipToNextToken
  modify fun l => { l with adjacentValueAt := l.cursor.mark.index }
  push t.mark t.token

def fetchFlowStart (isMapping : Bool) : LexM Unit := do
  saveSimpleKey
  rollOneColumn
  if (← get).flowLevel = 255 then refuse "too many nested flow collections"
  modify fun l =>
    { l with flowLevel := l.flowLevel + 1, simpleKeys := {} :: l.simpleKeys, simpleKeyAllowed := true }
  let start ← mark
  skip
  modify fun l =>
    if isMapping then { l with flowMappingStarted := true }
    else { l with entryMappings := .possible :: l.entryMappings }
  let _ ← skipToEndOfLine true
  push start (if isMapping then .flowMappingStart else .flowSequenceStart)

def fetchFlowEnd (isMapping : Bool) : LexM Unit := do
  removeSimpleKey
  modify fun l =>
    if l.flowLevel = 0 then l
    else { l with flowLevel := l.flowLevel - 1, simpleKeys := l.simpleKeys.tail }
  disallowSimpleKey
  unless isMapping do
    endEntryMapping (← mark)
    modify fun l => { l with entryMappings := l.entryMappings.tail }
  let start ← mark
  skip
  let _ ← skipToEndOfLine true
  if ← inFlow then
    modify fun l => { l with adjacentValueAt := l.cursor.mark.index }
  push start (if isMapping then .flowMappingEnd else .flowSequenceEnd)

def fetchFlowEntry : LexM Unit := do
  removeSimpleKey
  allowSimpleKey
  endEntryMapping (← mark)
  let start ← mark
  skip
  let _ ← skipToEndOfLine true
  push start .flowEntry

def fetchBlockEntry : LexM Unit := do
  if ← inFlow then refuse "a block entry inside a flow collection"
  unless (← get).simpleKeyAllowed do refuse "a block entry is not allowed here"
  let start ← mark
  match (← get).tokens.back? with
  | some ⟨m, .anchor _⟩ | some ⟨m, .tag _⟩ =>
    if start.col = 0 && m.col = 0 && -1 < (← get).indent then
      refuseAt m "an anchor that is not indented far enough"
  | _ => pure ()
  skip
  rollIndent start.col none .blockSequenceStart start
  let passed ← skipToEndOfLine true
  if passed.tab && (← peek 0) == '-' && isSpaceOrEnd (← peek 1) then
    refuse "a tab between two block entries"
  if isBreak (← peek 0) || isFlow (← peek 0) then rollOneColumn
  removeSimpleKey
  allowSimpleKey
  push (← mark) .blockEntry

def fetchDocumentIndicator (token : Token) : LexM Unit := do
  unrollIndent (-1)
  removeSimpleKey
  disallowSimpleKey
  let start ← mark
  skipMany 3
  push start token

def fetchDirective : LexM Unit := do
  unrollIndent (-1)
  removeSimpleKey
  disallowSimpleKey
  let start ← mark
  push start (← scanDirective)

def fetchKey : LexM Unit := do
  let start ← mark
  if ← inFlow then
    modify fun l => { l with flowMappingStarted := true }
  else
    unless (← get).simpleKeyAllowed do refuse "a key is not allowed here"
    rollIndent start.col none .blockMappingStart start
  removeSimpleKey
  modify fun l => { l with simpleKeyAllowed := l.flowLevel = 0 }
  skip
  skipYamlSpace
  if (← peek 0) == '\t' then refuse "a tab behind a key indicator"
  push start .key

def fetchValue : LexM Unit := do
  let l ← get
  let k := l.simpleKeys.headD {}
  let start := l.cursor.mark
  let isEntryMapping := !l.entryMappings.isEmpty && !l.flowMappingStarted
  if isEntryMapping then
    set { l with entryMappings := .inside :: l.entryMappings.tail }
  skip
  if (← peek 0) == '\t' then
    let passed ← skipToEndOfLine true
    let c ← peek 0
    if !passed.space && isNameChar c then
      refuse "a tab behind a value indicator"
  if k.possible then
    insertAt k.tokenNumber k.mark .key
    if isEntryMapping then
      if k.mark.line < start.line then
        refuseAt start "a value indicator on another line than its key"
      insertAt k.tokenNumber (← mark) .flowMappingStart
    rollIndent k.mark.col (some k.tokenNumber) .blockMappingStart start
    rollOneColumn
    modify fun l => { l with simpleKeys := { k with possible := false } :: l.simpleKeys.tail }
    disallowSimpleKey
  else
    if isEntryMapping then
      push (← mark) .flowMappingStart
    unless ← inFlow do
      unless (← get).simpleKeyAllowed do refuseAt start "a value is not allowed here"
      rollIndent start.col none .blockMappingStart start
    rollOneColumn
    modify fun l => { l with simpleKeyAllowed := l.flowLevel = 0 }
  push start .value

def fetchStreamEnd : LexM Unit := do
  modify fun l =>
    let m := l.cursor.mark
    if m.col = 0 then l
    else { l with cursor := { l.cursor with mark := { m with line := m.line + 1, col := 0 } } }
  let l ← get
  if l.simpleKeys.any (fun k => k.required && k.possible) then
    refuse "a key without a colon"
  let keys := l.simpleKeys.map fun k => { k with possible := false }
  set { l with simpleKeys := keys }
  unrollIndent (-1)
  removeSimpleKey
  disallowSimpleKey
  push (← mark) .streamEnd

-- Reads what starts with an indicator or a plain character.
def fetchContent : LexM Unit := do
  let c ← peek 0
  let blankNext := isSpaceOrEnd (← peek 1)
  let flowNext := isFlow (← peek 1)
  let inFlow ← inFlow
  let adjacent := (← mark).index = (← get).adjacentValueAt
  match c with
  | '[' => fetchFlowStart false
  | '\x7b' => fetchFlowStart true
  | ']' => fetchFlowEnd false
  | '\x7d' => fetchFlowEnd true
  | ',' => fetchFlowEntry
  | '*' => fetchTagOrAnchor (scanAnchor true)
  | '&' => fetchTagOrAnchor (scanAnchor false)
  | '!' => fetchTagOrAnchor scanTag
  | '"' => fetchQuoted false
  | '%' | '@' => refuse "an unexpected character"
  | c =>
    if c == '-' && blankNext then fetchBlockEntry
    else if c == '?' && blankNext then fetchKey
    else if c == ':' && (blankNext || (inFlow && (flowNext || adjacent))) then fetchValue
    else if c == '|' && !inFlow then fetchKeyable true (scanBlockScalar true)
    else if c == '>' && !inFlow then fetchKeyable true (scanBlockScalar false)
    else if c == Char.ofNat 39 then fetchQuoted true
    else if c == Char.ofNat 96 then refuse "an unexpected character"
    else fetchKeyable false scanPlain

-- Reads the next token; answers whether there are more behind it.
def fetchNext : LexM Bool := do
  skipToNextToken
  dropStaleKeys
  unrollIndent (← column)
  if isEnd (← peek 0) then
    fetchStreamEnd
    return false
  if (← mark).col = 0 then
    if (← peek 0) == '%' then
      fetchDirective
      return true
    if ← atDocumentMark '-' then
      fetchDocumentIndicator .documentStart
      return true
    if ← atDocumentMark '.' then
      fetchDocumentIndicator .documentEnd
      let _ ← skipToEndOfLine true
      unless isBreakOrEnd (← peek 0) do
        refuse "text behind the end of a document"
      return true
  if (← column) < (← get).indent then
    refuse "invalid indentation"
  fetchContent
  return true

end LexM

-- The tokens of a stream. Every token but those that end blocks takes a character, so the length of
-- the stream bounds the number of steps.
def tokens (cs : List Char) : Except StreamError (List MarkedToken) := do
  let ((), l) ← (LexM.repeatWhile (cs.length + 1) LexM.fetchNext).run { cursor := .start cs }
  return l.tokens.toList

end Repin.Yaml
