import Repin.Glob.ByteExpr
/-!
# Glob patterns

A pattern selects paths whose parts are separated by `/`. `?` and `*` stay inside a part, `**` as a
whole part crosses any number of them, `[...]` is a class and `{...,...}` a choice, and a backslash
takes away the meaning of the character behind it. Patterns and paths are compared byte by byte, so
`?` and a class match a byte and not a character.
-/
namespace Repin.Glob

inductive Part where
  | literal (c : Char)
  -- Any byte but a separator.
  | one
  -- Any bytes but separators.
  | many
  -- `**` at the start: nothing, or any parts with the separator behind them.
  | anyParent
  -- `/**` at the end: a separator and anything.
  | anyChild
  -- `/**/` inside: a separator, or any parts between two.
  | anyBetween
  | oneOf (negated : Bool) (ranges : List (Char × Char))
  | choice (branches : List (List Part))

-- Why a text is no pattern.
inductive PatternError where
  | unclosedClass
  | invalidRange (first last : Char)
  | unopenedChoice
  | unclosedChoice
  | danglingEscape
  deriving DecidableEq, Repr

def PatternError.message : PatternError → String
  | unclosedClass => "unclosed character class; missing ']'"
  | invalidRange first last =>
    "invalid range; '" ++ String.singleton first ++ "' > '" ++ String.singleton last ++ "'"
  | unopenedChoice =>
    "unopened alternate group; missing '\x7b' (maybe escape '\x7d' with '[\x7d]'?)"
  | unclosedChoice =>
    "unclosed alternate group; missing '\x7d' (maybe escape '\x7b' with '[\x7b]'?)"
  | danglingEscape => "dangling '\\'"

/-! Classes -/

-- The end of the last range of a class, the ranges in reverse.
def extendRange (ranges : List (Char × Char)) (last : Char) :
    Except PatternError (List (Char × Char)) :=
  match ranges with
  | (first, _) :: rest =>
    if last < first then .error (.invalidRange first last) else .ok ((first, last) :: rest)
  | [] => .ok [(last, last)]

-- Reads a class behind its opening bracket up to the closing one. A bracket or hyphen that stands
-- first is a member; a hyphen makes a range of the members around it; one that stands last is a
-- member.
def readClass (first inRange : Bool) (ranges : List (Char × Char)) :
    List Char → Except PatternError (List (Char × Char) × List Char)
  | [] => .error .unclosedClass
  | c :: cs =>
    if c = ']' ∧ !first then
      .ok ((if inRange then ('-', '-') :: ranges else ranges).reverse, cs)
    else if c = '-' ∧ !first ∧ !inRange then
      readClass false true ranges cs
    else if inRange then do
      readClass false false (← extendRange ranges c) cs
    else
      readClass false false ((c, c) :: ranges) cs

/-! Reading a pattern -/

-- A choice whose end has not been read: what stands in front of it, and its finished branches; all
-- in reverse.
structure OpenChoice where
  outer : List Part
  branches : List (List Part)

-- A pattern while it is read.
structure Reader where
  -- The parts of the innermost branch so far, in reverse.
  parts : List Part := []
  choices : List OpenChoice := []
  -- The last character read.
  previous : Option Char := none

namespace Reader

def push (r : Reader) (p : Part) : Reader :=
  { r with parts := p :: r.parts }

def openChoice (r : Reader) : Reader :=
  { r with parts := [], choices := ⟨r.parts, []⟩ :: r.choices }

def closeChoice (r : Reader) : Except PatternError Reader :=
  match r.choices with
  | [] => .error .unopenedChoice
  | c :: choices =>
    .ok { r with
      parts := .choice (r.parts.reverse :: c.branches).reverse :: c.outer
      choices }

-- A comma starts the next branch of a choice; outside of all choices it is a character.
def comma (r : Reader) : Reader :=
  match r.choices with
  | [] => r.push (.literal ',')
  | c :: choices =>
    { r with parts := [], choices := ⟨c.outer, r.parts.reverse :: c.branches⟩ :: choices }

-- Takes in two stars that stand for a whole part, behind a separator; that is the last of the parts
-- so far. What stood for any parts already still does.
def crossParts (r : Reader) (last : Bool) : Reader :=
  match r.parts with
  | .anyParent :: _ | .anyChild :: _ => r
  | _ :: parts => { r with parts := (if last then .anyChild else .anyBetween) :: parts }
  | [] => r

-- Takes in two stars, given what stands before and behind them; gives the rest. They stand for
-- whole parts only between separators and the ends of a pattern or branch.
def doubleStar (r : Reader) (before : Option Char) (rest : List Char) : Reader × List Char :=
  let inPart := (r.push .many).push .many
  if r.parts.isEmpty then
    match rest with
    | [] => (r.push .anyParent, [])
    | '/' :: rest => ({ r with previous := some '/' }.push .anyParent, rest)
    | _ => (inPart, rest)
  else if before != some '/'
      && !(!r.choices.isEmpty && (before == some ',' || before == some '\x7b')) then
    (inPart, rest)
  else
    match rest with
    | [] => (r.crossParts true, [])
    | '/' :: rest => ({ r with previous := some '/' }.crossParts false, rest)
    | c :: _ =>
      if (c = ',' ∨ c = '\x7d') ∧ !r.choices.isEmpty then (r.crossParts true, rest)
      else (inPart, rest)

@[simp]
theorem choices_push (r : Reader) (p : Part) : (r.push p).choices = r.choices := rfl

@[simp]
theorem choices_crossParts (r : Reader) (last : Bool) : (r.crossParts last).choices = r.choices := by
  unfold crossParts
  split <;> rfl

theorem doubleStar_keeps (r : Reader) (before : Option Char) (rest : List Char) :
    (r.doubleStar before rest).1.choices = r.choices ∧ (r.doubleStar before rest).2 ⊆ rest := by
  fun_cases doubleStar
  case case3 | case4 | case8 => exact ⟨rfl, List.Subset.refl _⟩
  all_goals simp

-- Reads a pattern. Every step takes a character, so their number bounds the steps.
def readAll : Nat → List Char → Reader → Except PatternError Reader
  | 0, _, r | _, [], r => .ok r
  | n + 1, c :: cs, r =>
    let before := r.previous
    let r := { r with previous := some c }
    match c with
    | '?' => readAll n cs (r.push .one)
    | '*' =>
      match cs with
      | '*' :: cs =>
        let (r, rest) := { r with previous := some '*' }.doubleStar before cs
        readAll n rest r
      | _ => readAll n cs (r.push .many)
    | '[' => do
      let (negated, body) :=
        match cs with
        | '!' :: cs | '^' :: cs => (true, cs)
        | _ => (false, cs)
      let (ranges, rest) ← readClass true false [] body
      readAll n rest ({ r with previous := some ']' }.push (.oneOf negated ranges))
    | '\x7b' => readAll n cs r.openChoice
    | '\x7d' => do readAll n cs (← r.closeChoice)
    | ',' => readAll n cs r.comma
    | '\\' =>
      match cs with
      | [] => .error .danglingEscape
      | d :: cs => readAll n cs ({ r with previous := some d }.push (.literal d))
    | c => readAll n cs (r.push (.literal c))

-- Only classes, choices and escapes may be malformed.
theorem exists_readAll_of_plain {n : Nat} {cs : List Char} {r : Reader}
    (plain : ∀ c ∈ cs, c ∉ ['[', '\x7b', '\x7d', '\\']) (none : r.choices = []) :
    ∃ r', readAll n cs r = .ok r' ∧ r'.choices = [] := by
  fun_induction readAll n cs r
  case case1 | case2 => exact ⟨_, rfl, none⟩
  case case4 before cs next rest start crossed ih =>
    have keeps := doubleStar_keeps { start with previous := some '*' } before cs
    rw [crossed] at keeps
    refine ih (fun c hc => plain c ?_) (keeps.left.trans none)
    exact List.mem_cons_of_mem _ (List.mem_cons_of_mem _ (keeps.right hc))
  case case9 r ih =>
    have same : r.comma = r.push (.literal ',') := by simp only [comma, none, r]
    exact ih (List.forall_mem_cons.mp plain).right (by rw [same]; exact none)
  case case3 ih | case5 ih | case12 ih => exact ih (List.forall_mem_cons.mp plain).right none
  all_goals simp at plain

end Reader

-- Reads a pattern.
def parts (text : String) : Except PatternError (List Part) := do
  let cs := text.toList
  let r ← Reader.readAll cs.length cs {}
  if r.choices.isEmpty then return r.parts.reverse else throw .unclosedChoice

theorem exists_parts_of_plain {text : String}
    (plain : ∀ c ∈ text.toList, c ∉ ['[', '\x7b', '\x7d', '\\']) : ∃ ps, parts text = .ok ps := by
  obtain ⟨r, read, none⟩ :=
    Reader.exists_readAll_of_plain (n := text.toList.length) (r := {}) plain rfl
  exact ⟨r.parts.reverse, by simp [parts, read, none, bind, Except.bind, pure, Except.pure]⟩

/-! Meaning -/

def bytesOf (c : Char) : List UInt8 :=
  (String.singleton c).toUTF8.data.toList

-- The ranges of bytes that stand for a range of characters: the bytes of its first character, of
-- which the last one opens a range that the first byte of the last character closes, and the bytes
-- behind that.
def byteRanges (range : Char × Char) : List (UInt8 × UInt8) :=
  let single (b : UInt8) : UInt8 × UInt8 := (b, b)
  let first := bytesOf range.1
  if range.1 = range.2 then
    first.map single
  else
    match first.reverse, bytesOf range.2 with
    | open_ :: front, close :: behind =>
      front.reverse.map single ++ (open_, close) :: behind.map single
    | _, _ => []

def slash : UInt8 := 0x2F

-- A choice of what its branches match. A choice of no branches matches nothing but the empty text.
def choiceExpr : ByteExpr → ByteExpr
  | .nothing => .empty
  | e => e

mutual

-- The texts that a part matches.
def Part.expr : Part → ByteExpr
  | .literal c => .sequence ((bytesOf c).map fun b => .byte (.single b))
  | .one => .byte (.allBut slash)
  | .many => .many (.allBut slash)
  | .anyParent =>
    .either .empty (.either (.byte (.single slash)) (.seq (.many .all) (.byte (.single slash))))
  | .anyChild => .seq (.byte (.single slash)) (.many .all)
  | .anyBetween =>
    .either (.byte (.single slash))
      (.seq (.byte (.single slash)) (.seq (.many .all) (.byte (.single slash))))
  | .oneOf negated ranges => .byte ⟨negated, ranges.flatMap byteRanges⟩
  | .choice branches => choiceExpr (branchesExpr branches)

-- The texts that the parts match one behind another.
def partsExpr : List Part → ByteExpr
  | [] => .empty
  | p :: ps => p.expr.andThen (partsExpr ps)

-- The texts that one of the branches matches. Empty branches do not count.
def branchesExpr : List (List Part) → ByteExpr
  | [] => .nothing
  | branch :: branches =>
    match partsExpr branch with
    | .empty => branchesExpr branches
    | e => e.orElse (branchesExpr branches)

end

-- A pattern: the expression that its paths match.
structure Pattern where
  text : String
  expr : ByteExpr
  deriving DecidableEq, Repr

namespace Pattern

-- Two stars alone match every path.
def exprOf : List Part → ByteExpr
  | [.anyParent] => .many .all
  | parts => partsExpr parts

def parse (text : String) : Except PatternError Pattern := do
  return ⟨text, exprOf (← parts text)⟩

theorem exists_parse_of_plain {text : String}
    (plain : ∀ c ∈ text.toList, c ∉ ['[', '\x7b', '\x7d', '\\']) : ∃ p, parse text = .ok p := by
  obtain ⟨ps, read⟩ := exists_parts_of_plain plain
  exact ⟨⟨text, exprOf ps⟩, by rw [parse, read]; rfl⟩

def accepts (p : Pattern) (path : String) : Bool :=
  p.expr.accepts path.toUTF8.data.toList

end Pattern

end Repin.Glob
