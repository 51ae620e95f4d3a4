/-!
# Splitting at separators

A text with `n` separators has `n + 1` pieces, empty ones included.
-/
namespace Repin.Text

-- The pieces of a text between the characters of a class.
def splitOn (isSeparator : Char → Bool) : List Char → List (List Char)
  | [] => [[]]
  | c :: cs =>
    if isSeparator c then
      [] :: splitOn isSeparator cs
    else
      match splitOn isSeparator cs with
      | [] => [[c]]
      | piece :: pieces => (c :: piece) :: pieces

-- The pieces of a text between occurrences of one character.
abbrev splitAt (separator : Char) (cs : List Char) : List (List Char) :=
  splitOn (· == separator) cs

theorem splitOn_ne_nil (isSeparator : Char → Bool) (cs : List Char) :
    splitOn isSeparator cs ≠ [] := by
  cases cs with
  | nil => simp [splitOn]
  | cons c cs =>
    simp only [splitOn]
    split
    · simp
    · split <;> simp

-- Writing the separator between the pieces gives back the text.
theorem intercalate_splitAt (separator : Char) (cs : List Char) :
    [separator].intercalate (splitAt separator cs) = cs := by
  induction cs with
  | nil => simp [splitAt, splitOn]
  | cons c cs ih =>
    have ne := splitOn_ne_nil (· == separator) cs
    simp only [splitAt] at ih
    match hs : splitOn (· == separator) cs with
    | [] => exact absurd hs ne
    | piece :: pieces =>
      rw [hs] at ih
      simp only [splitAt, splitOn, hs]
      by_cases hc : c = separator
      · subst hc
        simp [List.intercalate_cons_of_ne_nil, ih]
      · have : (c == separator) = false := by simp [hc]
        rw [this]
        cases pieces with
        | nil => simpa using ih
        | cons p ps => simpa [List.intercalate_cons_of_ne_nil] using ih

-- The parts before and after the first occurrence of a character.
def splitOnce (separator : Char) : List Char → Option (List Char × List Char)
  | [] => none
  | c :: cs =>
    if c = separator then
      some ([], cs)
    else
      (splitOnce separator cs).map fun (before, after) => (c :: before, after)

-- The rest of a text after a given beginning.
def stripStart? : List Char → List Char → Option (List Char)
  | [], cs => some cs
  | _ :: _, [] => none
  | p :: ps, c :: cs => if p = c then stripStart? ps cs else none

theorem stripStart?_eq_some_iff {beginning cs rest : List Char} :
    stripStart? beginning cs = some rest ↔ cs = beginning ++ rest := by
  induction beginning generalizing cs with
  | nil => simp [stripStart?, eq_comm]
  | cons p ps ih =>
    cases cs with
    | nil => simp [stripStart?]
    | cons c cs =>
      simp only [stripStart?, List.cons_append, List.cons.injEq]
      split
      · simp [*]
      · grind

-- Whether a text occurs in another one.
def occursIn (part : List Char) : List Char → Bool
  | [] => part.isEmpty
  | c :: cs => part.isPrefixOf (c :: cs) || occursIn part cs

-- A text without one given character at its end.
def stripLast (last : Char) : List Char → List Char
  | [] => []
  | [c] => if c = last then [] else [c]
  | c :: d :: cs => c :: stripLast last (d :: cs)

end Repin.Text
