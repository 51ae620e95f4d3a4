/-!
# Tokens of YAML

A stream is cut into tokens before its structure is read. Block structure, which the text shows by
indentation, is made explicit by tokens of its own. Places count characters, not bytes.
-/
namespace Repin.Yaml

-- A place in a stream: characters passed, line and column, the line from one and the rest from
-- zero.
structure Mark where
  index : Nat
  line : Nat
  col : Nat
  deriving DecidableEq, Repr, Inhabited

-- How a scalar is written.
inductive ScalarStyle where
  | plain
  | singleQuoted
  | doubleQuoted
  | literal
  | folded
  deriving DecidableEq, Repr

inductive Token where
  | streamEnd
  | versionDirective
  | tagDirective (handle : String)
  | documentStart
  | documentEnd
  | blockSequenceStart
  | blockMappingStart
  | blockEnd
  | flowSequenceStart
  | flowSequenceEnd
  | flowMappingStart
  | flowMappingEnd
  | blockEntry
  | flowEntry
  | key
  | value
  | reference (name : String)
  | anchor (name : String)
  | tag (handle : String)
  | scalar (style : ScalarStyle) (text : String)
  deriving DecidableEq, Repr

structure MarkedToken where
  mark : Mark
  token : Token
  deriving DecidableEq, Repr

-- Why a stream is malformed, and where.
structure StreamError where
  mark : Mark
  reason : String
  deriving DecidableEq, Repr

/-! Character classes. The character NUL ends a stream. -/

def isEnd (c : Char) : Bool := c == '\x00'
def isBreak (c : Char) : Bool := c == '\n' || c == '\r'
def isBreakOrEnd (c : Char) : Bool := isBreak c || isEnd c
def isSpace (c : Char) : Bool := c == ' ' || c == '\t'
def isSpaceOrEnd (c : Char) : Bool := isSpace c || isBreakOrEnd c

-- The indicators of flow collections.
def isFlow (c : Char) : Bool :=
  c == ',' || c == '[' || c == ']' || c == '\x7b' || c == '\x7d'

def isNameChar (c : Char) : Bool := c.isAlphanum || c == '_' || c == '-'

def isAnchorChar (c : Char) : Bool :=
  !isSpaceOrEnd c && !isFlow c && c != '\uFEFF'

def isHex (c : Char) : Bool :=
  c.isDigit || ('a' ≤ c && c ≤ 'f') || ('A' ≤ c && c ≤ 'F')

def hexValue (c : Char) : Nat :=
  if c.isDigit then c.toNat - 48
  else if 'a' ≤ c ∧ c ≤ 'f' then c.toNat - 87
  else c.toNat - 55

def isUriChar (c : Char) : Bool :=
  (isNameChar c && c != '_') || "#;/?:@&=+$,_.!~*'()[]%".contains c

def isTagChar (c : Char) : Bool :=
  isUriChar c && !isFlow c && c != '!'

end Repin.Yaml
