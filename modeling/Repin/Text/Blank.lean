/-!
# Blank characters

Surrounding blanks are removed by the Unicode property White_Space, not by the narrower class of
`Char.isWhitespace`.
-/
namespace Repin.Text

-- The characters with the property White_Space.
def isBlank (c : Char) : Bool :=
  let n := c.toNat
  (0x09 ≤ n && n ≤ 0x0D) || n == 0x20 || n == 0x85 || n == 0xA0 || n == 0x1680
    || (0x2000 ≤ n && n ≤ 0x200A) || n == 0x2028 || n == 0x2029 || n == 0x202F || n == 0x205F
    || n == 0x3000

-- A text without its leading blanks.
def trimStart (cs : List Char) : List Char :=
  cs.dropWhile isBlank

-- A text without its trailing blanks.
def trimEnd : List Char → List Char
  | [] => []
  | c :: cs =>
    match trimEnd cs with
    | [] => if isBlank c then [] else [c]
    | d :: ds => c :: d :: ds

-- A text without its leading and trailing blanks.
def trim (cs : List Char) : List Char :=
  trimEnd (trimStart cs)

-- The trailing blanks of a text: what `trimEnd` removes.
def trailing (cs : List Char) : List Char :=
  cs.drop (trimEnd cs).length

-- `trimEnd` removes a run of blanks and nothing else.
theorem trimEnd_append_trailing (cs : List Char) : trimEnd cs ++ trailing cs = cs := by
  induction cs with
  | nil => rfl
  | cons c cs ih =>
    unfold trailing trimEnd at *
    split at ih <;> grind [trimEnd]

end Repin.Text
