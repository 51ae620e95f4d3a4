/-!
# Decimal numbers of 64 bits

Version numbers are written in ASCII digits and stay below 2^64; a longer number is no number.
-/
namespace Repin.Text

-- Reads a non-empty run of ASCII digits below 2^64. Leading zeros are allowed.
def readNumber (cs : List Char) : Option UInt64 :=
  if cs ≠ [] ∧ cs.all Char.isDigit then
    let n := Nat.ofDigitChars 10 cs 0
    if h : n < UInt64.size then some (UInt64.ofNatLT n h) else none
  else
    none

-- Reads a number in its shortest form: no leading zero, except for zero itself.
def readShortest (cs : List Char) : Option UInt64 :=
  match cs with
  | '0' :: _ :: _ => none
  | _ => readNumber cs

-- The decimal digits of a number.
def writeNumber (n : UInt64) : String :=
  toString n.toNat

theorem toList_writeNumber (n : UInt64) : (writeNumber n).toList = Nat.toDigits 10 n.toNat := by
  simp [writeNumber]

-- What was written is read back.
theorem readNumber_writeNumber (n : UInt64) : readNumber (writeNumber n).toList = some n := by
  have nonempty : Nat.toDigits 10 n.toNat ≠ [] := Nat.toDigits_ne_nil
  have digits : (Nat.toDigits 10 n.toNat).all Char.isDigit := by
    simp only [List.all_eq_true]
    exact fun c hc => Nat.isDigit_of_mem_toDigits (by decide) (by decide) hc
  have value : Nat.ofDigitChars 10 (Nat.toDigits 10 n.toNat) 0 = n.toNat :=
    Nat.ofDigitChars_toDigits (by decide) (by decide)
  rw [toList_writeNumber, readNumber, if_pos ⟨nonempty, digits⟩]
  simp only [value]
  rw [dif_pos n.toNat_lt]
  simp

end Repin.Text
