import Repin.Text.Decimal
/-!
# Written numbers

A written number is a run of ASCII digits without a leading zero, so it holds no separator of any
version grammar and is read back by both readers.
-/
namespace Repin.Text

variable {n : UInt64} {c : Char} {cs : List Char}

theorem writeNumber_ne_nil : (writeNumber n).toList ≠ [] := by
  rw [toList_writeNumber]
  exact Nat.toDigits_ne_nil

theorem isDigit_of_mem_writeNumber (h : c ∈ (writeNumber n).toList) : c.isDigit := by
  rw [toList_writeNumber] at h
  exact Nat.isDigit_of_mem_toDigits (by decide) (by decide) h

-- Every separator of a version grammar is a character of this kind.
theorem not_mem_writeNumber (h : c.isDigit = false) : c ∉ (writeNumber n).toList := by
  intro hm
  have := isDigit_of_mem_writeNumber hm
  simp [h] at this

-- The decimal digits of a number, leading zeros and all.
def IsNumber (piece : List Char) (n : UInt64) : Prop :=
  piece ≠ [] ∧ (∀ d ∈ piece, d.isDigit) ∧ Nat.ofDigitChars 10 piece 0 = n.toNat

theorem readNumber_eq_some_iff : readNumber cs = some n ↔ IsNumber cs n := by
  unfold readNumber IsNumber
  split
  case isFalse no =>
    simp only [List.all_eq_true] at no
    simp only [reduceCtorEq, false_iff]
    exact fun h => no ⟨h.left, h.right.left⟩
  case isTrue yes =>
    simp only [List.all_eq_true] at yes
    dsimp only
    split
    case isTrue lt =>
      rw [Option.some.injEq, ← UInt64.toNat_inj, UInt64.toNat_ofNatLT]
      exact ⟨fun h => ⟨yes.left, yes.right, h⟩, fun h => h.right.right⟩
    case isFalse ge =>
      simp only [reduceCtorEq, false_iff]
      intro h
      exact ge (h.right.right ▸ n.toNat_lt)

theorem readNumber_eq_some (h : readNumber cs = some n) : cs ≠ [] ∧ ∀ c ∈ cs, c.isDigit :=
  have number := readNumber_eq_some_iff.mp h
  ⟨number.left, number.right.left⟩

theorem readNumber_eq_none (hm : c ∈ cs) (h : c.isDigit = false) : readNumber cs = none := by
  cases hr : readNumber cs
  case none => rfl
  case some n =>
    have := (readNumber_eq_some hr).right c hm
    simp [h] at this

theorem head?_toDigits_ne_zero {k : Nat} (h : 0 < k) : (Nat.toDigits 10 k).head? ≠ some '0' := by
  induction k using Nat.strongRecOn with
  | _ k ih =>
    by_cases hk : k < 10
    case pos =>
      rw [Nat.toDigits_of_lt_base hk]
      have : ∀ d < 10, 0 < d → d.digitChar ≠ '0' := by decide
      simpa using this k hk h
    case neg =>
      have tail := ih (k / 10) (by omega) (by omega)
      rw [Nat.toDigits_of_base_le (by decide) (by omega)]
      cases hd : Nat.toDigits 10 (k / 10)
      case nil => exact absurd hd Nat.toDigits_ne_nil
      case cons d ds => simpa [hd] using tail

theorem readShortest_writeNumber (n : UInt64) : readShortest (writeNumber n).toList = some n := by
  unfold readShortest
  split
  case h_1 d ds hs =>
    exfalso
    rw [toList_writeNumber] at hs
    by_cases hn : n.toNat = 0
    case pos => simp [hn] at hs
    case neg =>
      have := head?_toDigits_ne_zero (Nat.pos_of_ne_zero hn)
      simp [hs] at this
  case h_2 => exact readNumber_writeNumber n

theorem digitChar_of_isDigit (h : c.isDigit) : (c.toNat - '0'.toNat).digitChar = c := by
  simp only [Char.isDigit, Bool.and_eq_true, decide_eq_true_eq, ge_iff_le, UInt32.le_iff_toNat_le] at h
  have range : 48 ≤ c.toNat ∧ c.toNat ≤ 57 := h
  have zero : '0'.toNat = 48 := rfl
  apply Char.toNat_inj.mp
  rw [zero, Nat.toNat_digitChar_of_lt_ten (by omega)]
  omega

-- A number that is not zero is written with one digit more for each digit that is read behind it.
theorem toDigits_append {k : Nat} (hk : 0 < k) (h : ∀ c ∈ cs, c.isDigit) :
    Nat.toDigits 10 k ++ cs = Nat.toDigits 10 (Nat.ofDigitChars 10 cs k) := by
  induction cs generalizing k with
  | nil => simp
  | cons c cs ih =>
    have ⟨digit, rest⟩ := List.forall_mem_cons.mp h
    have char := digitChar_of_isDigit digit
    have lt : c.toNat - '0'.toNat < 10 := by
      rwa [← char, Nat.isDigit_digitChar, decide_eq_true_eq] at digit
    calc
      Nat.toDigits 10 k ++ c :: cs
        = Nat.toDigits 10 k ++ Nat.toDigits 10 (c.toNat - '0'.toNat) ++ cs := by
          rw [Nat.toDigits_of_lt_base lt, char, List.append_assoc, List.singleton_append]
      _ = Nat.toDigits 10 (10 * k + (c.toNat - '0'.toNat)) ++ cs := by
          rw [Nat.toDigits_append_toDigits (by decide) hk lt]
      _ = Nat.toDigits 10 (Nat.ofDigitChars 10 (c :: cs) k) := by
          rw [ih (by omega) rest, Nat.ofDigitChars_cons]

-- Digits without a leading zero are the ones of their number.
theorem toDigits_ofDigitChars (ne : cs ≠ []) (digits : ∀ c ∈ cs, c.isDigit)
    (shortest : cs.head? = some '0' → cs = ['0']) :
    Nat.toDigits 10 (Nat.ofDigitChars 10 cs 0) = cs := by
  cases cs with
  | nil => contradiction
  | cons c cs =>
    by_cases zero : c = '0'
    case pos =>
      rw [shortest (by simp [zero])]
      rfl
    case neg =>
      have ⟨digit, rest⟩ := List.forall_mem_cons.mp digits
      have char := digitChar_of_isDigit digit
      have lt : c.toNat - '0'.toNat < 10 := by
        rwa [← char, Nat.isDigit_digitChar, decide_eq_true_eq] at digit
      have pos : 0 < c.toNat - '0'.toNat := by
        apply Nat.pos_of_ne_zero
        intro none
        rw [none] at char
        exact zero char.symm
      rw [Nat.ofDigitChars_cons, Nat.mul_zero, Nat.zero_add, ← toDigits_append pos rest,
        Nat.toDigits_of_lt_base lt, char, List.singleton_append]

-- Only the shortest form of a number is read.
theorem readShortest_eq_some_iff : readShortest cs = some n ↔ (writeNumber n).toList = cs := by
  constructor
  case mpr =>
    rintro rfl
    exact readShortest_writeNumber n
  case mp =>
    intro h
    unfold readShortest at h
    split at h
    case h_1 => cases h
    case h_2 longer =>
      have ⟨ne, digits, value⟩ := readNumber_eq_some_iff.mp h
      rw [toList_writeNumber, ← value]
      apply toDigits_ofDigitChars ne digits
      intro head
      obtain ⟨rest, rfl⟩ := List.head?_eq_some_iff.mp head
      cases rest with
      | nil => rfl
      | cons d ds => exact absurd rfl (longer d ds)

end Repin.Text
