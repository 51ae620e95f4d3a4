import Repin.Text.Decimal
/-!
# Comparable versions

Every grammar with numbers has a `NumericVersion`: a major number, up to two further numbers and
prerelease labels. Precedence reads a missing number as zero, ranks a version with labels below the
same version without, and compares labels one by one.
-/
namespace Repin

-- A letter, digit or hyphen of ASCII: what labels and build metadata are made of.
def isLabelChar (c : Char) : Bool :=
  c.isAlphanum || c == '-'

-- A label that is not a number: some letter, digit or hyphen, and not digits alone.
def IsAlphaLabel (text : String) : Prop :=
  text.toList.all isLabelChar ∧ ¬ text.toList.all Char.isDigit

instance (text : String) : Decidable (IsAlphaLabel text) :=
  inferInstanceAs (Decidable (_ ∧ _))

-- One dot-separated prerelease label.
inductive PreLabel where
  | numeric (n : UInt64)
  | alpha (text : String) (isAlpha : IsAlphaLabel text)
  deriving DecidableEq

namespace PreLabel

-- Reads a label. A label of digits is a number, leading zeros and all.
def parse? (cs : List Char) : Option PreLabel :=
  if cs.all Char.isDigit then
    (Text.readNumber cs).map .numeric
  else
    let text := String.ofList cs
    if h : IsAlphaLabel text then some (.alpha text h) else none

def render : PreLabel → String
  | numeric n => Text.writeNumber n
  | alpha text _ => text

-- Numbers rank below texts; texts rank by their characters.
instance : Ord PreLabel where
  compare
    | numeric m, numeric n => compare m n
    | numeric _, alpha .. => .lt
    | alpha .., numeric _ => .gt
    | alpha s _, alpha t _ => compare s t

-- Labels are compared one by one, and a list ranks below its extensions.
def compareLists : List PreLabel → List PreLabel → Ordering
  | [], [] => .eq
  | [], _ :: _ => .lt
  | _ :: _, [] => .gt
  | a :: as, b :: bs => (compare a b).then (compareLists as bs)

end PreLabel

-- The comparable form of a version. Missing numbers stay missing, so that a text can be written
-- again at its own precision.
structure NumericVersion where
  major : UInt64
  minor : Option UInt64
  patch : Option UInt64
  prerelease : List PreLabel
  deriving DecidableEq

namespace NumericVersion

-- A version without labels.
def release (major : UInt64) (minor patch : Option UInt64) : NumericVersion :=
  ⟨major, minor, patch, []⟩

-- A release ranks above all its prereleases.
def comparePrerelease : List PreLabel → List PreLabel → Ordering
  | [], [] => .eq
  | [], _ :: _ => .gt
  | _ :: _, [] => .lt
  | a :: as, b :: bs => PreLabel.compareLists (a :: as) (b :: bs)

-- Precedence of versions.
instance : Ord NumericVersion where
  compare v w :=
    (compare v.major w.major).then <|
    (compare (v.minor.getD 0) (w.minor.getD 0)).then <|
    (compare (v.patch.getD 0) (w.patch.getD 0)).then <|
    comparePrerelease v.prerelease w.prerelease

end NumericVersion

-- Whether the pair of the first two numbers reaches another one.
def reaches (major minor toMajor toMinor : UInt64) : Bool :=
  toMajor < major || (toMajor == major && toMinor ≤ minor)

-- The first of the greatest members under precedence of a key.
def firstHighest? (key : α → NumericVersion) : List α → Option α
  | [] => none
  | a :: as => some <| as.foldl (fun best b => if compare (key b) (key best) = .gt then b else best) a

-- The least version of a list, and the first of equals.
def firstLowest? : List NumericVersion → Option NumericVersion
  | [] => none
  | v :: vs => some <| vs.foldl (fun best w => if compare w best = .lt then w else best) v

end Repin
