/-!
# Regular expressions over bytes

Paths are matched byte by byte. An expression is run by its derivatives: what is left to match once
a byte has been read is again an expression.
-/
namespace Repin.Glob

-- A set of bytes: the ranges, ends included, or all other bytes.
structure ByteSet where
  negated : Bool
  ranges : List (UInt8 × UInt8)
  deriving DecidableEq, Repr

namespace ByteSet

def contains (s : ByteSet) (b : UInt8) : Bool :=
  (s.ranges.any fun (first, last) => first ≤ b && b ≤ last) != s.negated

def all : ByteSet := ⟨true, []⟩
def single (b : UInt8) : ByteSet := ⟨false, [(b, b)]⟩
def allBut (b : UInt8) : ByteSet := ⟨true, [(b, b)]⟩

end ByteSet

inductive ByteExpr where
  | nothing
  | empty
  | byte (set : ByteSet)
  | many (set : ByteSet)
  | seq (first second : ByteExpr)
  | either (first second : ByteExpr)
  deriving DecidableEq, Repr

namespace ByteExpr

-- One expression behind another, without parts that are trivial.
def andThen : ByteExpr → ByteExpr → ByteExpr
  | nothing, _ => nothing
  | empty, e => e
  | e, empty => e
  | d, e => seq d e

-- One expression or another, without parts that are trivial.
def orElse : ByteExpr → ByteExpr → ByteExpr
  | nothing, e => e
  | e, nothing => e
  | d, e => either d e

-- Whether an expression matches the empty text.
def nullable : ByteExpr → Bool
  | nothing | byte _ => false
  | empty | many _ => true
  | seq d e => d.nullable && e.nullable
  | either d e => d.nullable || e.nullable

-- What is left to match behind a byte.
def derivative (b : UInt8) : ByteExpr → ByteExpr
  | nothing | empty => nothing
  | byte set => if set.contains b then empty else nothing
  | many set => if set.contains b then many set else nothing
  | seq d e =>
    let rest := (d.derivative b).andThen e
    if d.nullable then rest.orElse (e.derivative b) else rest
  | either d e => (d.derivative b).orElse (e.derivative b)

-- Whether an expression matches a whole text.
def accepts (e : ByteExpr) : List UInt8 → Bool
  | [] => e.nullable
  | b :: bs => (e.derivative b).accepts bs

-- The expressions one behind another.
def sequence (es : List ByteExpr) : ByteExpr :=
  es.foldr andThen empty

-- Any of the expressions.
def anyOf (es : List ByteExpr) : ByteExpr :=
  es.foldr orElse nothing

@[simp] theorem accepts_nothing (bs : List UInt8) : nothing.accepts bs = false := by
  induction bs with
  | nil => rfl
  | cons b bs ih => exact ih

-- A choice matches what one of its parts matches.
theorem accepts_either (d e : ByteExpr) (bs : List UInt8) :
    (either d e).accepts bs = (d.accepts bs || e.accepts bs) := by
  induction bs generalizing d e with
  | nil => rfl
  | cons b bs ih =>
    show ((d.derivative b).orElse (e.derivative b)).accepts bs = _
    have hd : d.accepts (b :: bs) = (d.derivative b).accepts bs := rfl
    have he : e.accepts (b :: bs) = (e.derivative b).accepts bs := rfl
    rw [hd, he]
    generalize d.derivative b = d'
    generalize e.derivative b = e'
    unfold orElse
    split <;> simp_all

end ByteExpr
end Repin.Glob
