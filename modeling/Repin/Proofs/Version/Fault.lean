import Mathlib.Data.List.TakeWhile
import Repin.Proofs.Except
import Repin.Proofs.Text.Bytes
import Repin.Proofs.Text.Decimal
import Repin.Proofs.Text.Split
import Repin.Proofs.Version.Cut
/-!
# Texts that a grammar cuts inside a character

Five of the grammars answer every text. In the sixth one the suffix of a feature band is cut off by
its length, and a character of several bytes may lie there: those texts are found here, and no others
stop the reader. All other cuts enclose what they are meant to.
-/
namespace Repin

variable {cs : List Char} {fault : Fault}

theorem Text.exists_not_isDigit_of_endsInside (h : EndsInside cs) : ∃ c ∈ cs, c.isDigit = false := by
  have wide {c : Char} (h : 2 ≤ c.utf8Size) : c.isDigit = false := by
    by_contra digit
    simp only [Bool.not_eq_false, Char.isDigit, Bool.and_eq_true, decide_eq_true_eq] at digit
    have high : c.toNat ≤ 57 := UInt32.le_iff_toNat_le.mp digit.right
    have one := utf8Size_of_toNat_le (by omega : c.toNat ≤ 127)
    omega
  unfold EndsInside at h
  split at h
  case h_1 => exact h.elim
  case h_2 d hr =>
    have hd : d ∈ cs.reverse := by simp [hr]
    exact ⟨d, List.mem_reverse.mp hd, wide (by omega)⟩
  case h_3 d c rest hr =>
    obtain long | ⟨_, long⟩ := h
    · have hd : d ∈ cs.reverse := by simp [hr]
      exact ⟨d, List.mem_reverse.mp hd, wide (by omega)⟩
    · have hc : c ∈ cs.reverse := by simp [hr]
      exact ⟨c, List.mem_reverse.mp hc, wide long⟩

theorem Text.readNumber_of_endsInside (h : EndsInside cs) : readNumber cs = none :=
  have ⟨_, hc, digit⟩ := exists_not_isDigit_of_endsInside h
  readNumber_eq_none hc digit

theorem Wildcard.read?_of_endsInside (h : Text.EndsInside cs) : read? cs = none := by
  unfold read?
  split
  case h_4 => rfl
  all_goals exact absurd h (by decide)

namespace FloatingExpr

-- An expression of three segments, the first two of them numbers, whose last one has a character where
-- a suffix of two bytes would start.
def CutsCharacter (cs : List Char) : Prop :=
  ∃ first second third, Text.splitAt '.' (cs.takeWhile (· ≠ '-')) = [first, second, third] ∧
    (Text.readNumber first).isSome ∧ (Text.readNumber second).isSome ∧ Text.EndsInside third

theorem readSegment_ne_fault : readSegment cs ≠ .error (.fault fault) := by
  unfold readSegment
  split <;> simp

theorem readSegment_eq_ok_iff {n : UInt64} : readSegment cs = .ok n ↔ Text.readNumber cs = some n := by
  unfold readSegment
  split
  case h_1 hn => simp [hn]
  case h_2 hn => simp [hn]

theorem readBand_eq_fault_iff :
    readBand cs = .error (.fault fault) ↔ fault = .splitCharacter ∧ Text.EndsInside cs := by
  rw [← Text.splitAtByte_sub_two_eq_none_iff]
  unfold readBand
  dsimp only
  split
  case isTrue short =>
    have start : Text.byteLength cs - 2 = 0 := by omega
    simp [start, Text.splitAtByte_zero]
  case isFalse =>
    split
    case h_1 hs => simp [hs, eq_comm]
    case h_2 hs => split <;> simp [hs]

theorem addLabels_ne_fault {expr : FloatingExpr} {labels : Option (List Char)} :
    addLabels expr labels ≠ .error (.fault fault) := by
  unfold addLabels
  split
  case h_1 => simp
  case h_2 =>
    split
    case h_1 => split <;> simp
    case h_2 => simp

theorem readCore_eq_fault_iff : readCore cs = .error (.fault fault) ↔
    fault = .splitCharacter ∧ ∃ first second third, Text.splitAt '.' cs = [first, second, third] ∧
      (Text.readNumber first).isSome ∧ (Text.readNumber second).isSome ∧ Text.EndsInside third := by
  unfold readCore
  split
  case h_1 first hs => simp [hs, bind_eq_error, readSegment_ne_fault, pure, Except.pure]
  case h_2 first second hs =>
    simp only [hs, bind_eq_error, readSegment_ne_fault, false_or]
    constructor
    case mp =>
      rintro ⟨m, _, h⟩
      split at h <;> cases h
    case mpr =>
      rintro ⟨_, _, _, _, h, _⟩
      cases h
  case h_3 first second third hs =>
    simp only [hs, bind_eq_error, readSegment_ne_fault, readSegment_eq_ok_iff, false_or]
    constructor
    case mp =>
      rintro ⟨m, hm, n, hn, h⟩
      split at h
      case h_1 => cases h
      case h_2 => cases h
      case h_3 =>
        obtain h | ⟨_, _, h⟩ := bind_eq_error.mp h
        · have ⟨rfl, inside⟩ := readBand_eq_fault_iff.mp h
          exact ⟨rfl, _, _, _, rfl, by simp [hm], by simp [hn], inside⟩
        · cases h
    case mpr =>
      rintro ⟨rfl, _, _, _, he, hm, hn, inside⟩
      cases he
      obtain ⟨m, hm⟩ := Option.isSome_iff_exists.mp hm
      obtain ⟨n, hn⟩ := Option.isSome_iff_exists.mp hn
      refine ⟨m, hm, n, hn, ?_⟩
      rw [Text.readNumber_of_endsInside inside, Wildcard.read?_of_endsInside inside]
      exact bind_eq_error.mpr (.inl (readBand_eq_fault_iff.mpr ⟨rfl, inside⟩))
  case h_4 one two three =>
    simp only [throw, throwThe, MonadExceptOf.throw, Except.error.injEq, reduceCtorEq, false_iff]
    rintro ⟨_, _, _, _, h, _⟩
    exact three _ _ _ h

theorem read_eq_fault_iff :
    read cs = .error (.fault fault) ↔ fault = .splitCharacter ∧ CutsCharacter cs := by
  unfold read CutsCharacter
  cases hs : Text.splitOnce '-' cs with
  | none =>
    have whole : cs.takeWhile (· ≠ '-') = cs :=
      Text.takeWhile_eq_self_of_not_mem (Text.splitOnce_eq_none_iff.mp hs)
    rw [whole, bind_eq_error]
    simp [addLabels_ne_fault, readCore_eq_fault_iff]
  | some parts =>
    rw [Text.takeWhile_of_splitOnce hs, bind_eq_error]
    simp [addLabels_ne_fault, readCore_eq_fault_iff]

theorem parse_eq_fault_iff {text : String} :
    parse text = .error (.fault fault) ↔ fault = .splitCharacter ∧ CutsCharacter text.toList := by
  unfold parse
  rw [← read_eq_fault_iff, mapError_eq_error]
  constructor
  case mp =>
    rintro ⟨stop, h, he⟩
    cases stop <;> cases he
    exact h
  case mpr => exact fun h => ⟨_, h, rfl⟩

end FloatingExpr

namespace FloatingLine

-- The expression of a line: what stands before its comment, without the blanks around it.
def expression (line : List Char) : List Char :=
  Text.trimStart (splitComment (Text.stripLast '\r' line)).1

theorem not_cutsCharacter_nil : ¬ FloatingExpr.CutsCharacter [] := by
  rintro ⟨_, _, _, h, _⟩
  cases h

theorem read_eq_fault_iff {line : List Char} : read line = .error (.fault fault) ↔
    fault = .splitCharacter ∧ FloatingExpr.CutsCharacter (expression line) := by
  unfold read expression
  dsimp only
  split
  case isTrue empty => simp [List.isEmpty_iff.mp empty, not_cutsCharacter_nil]
  case isFalse =>
    rw [bind_eq_error]
    simp [FloatingExpr.parse_eq_fault_iff, pure, Except.pure]

end FloatingLine

theorem FloatingList.parse_eq_fault_iff {text : String} : parse text = .error (.fault fault) ↔
    fault = .splitCharacter ∧ ∃ before line after,
      Text.splitAt '\n' text.toList = before ++ line :: after ∧
      (∀ l ∈ before, ∃ read, FloatingLine.read l = .ok read) ∧
      FloatingExpr.CutsCharacter (FloatingLine.expression line) := by
  unfold parse
  rw [bind_eq_error, mapM_eq_error]
  constructor
  case mp =>
    rintro (⟨before, line, after, hs, hb, h⟩ | ⟨_, _, h⟩)
    · have ⟨rfl, cut⟩ := FloatingLine.read_eq_fault_iff.mp h
      exact ⟨rfl, before, line, after, hs, hb, cut⟩
    · split at h <;> cases h
  case mpr =>
    rintro ⟨rfl, before, line, after, hs, hb, cut⟩
    exact .inl ⟨before, line, after, hs, hb, FloatingLine.read_eq_fault_iff.mpr ⟨rfl, cut⟩⟩

namespace Token

-- The lines of a list are read in order, so the line that is cut apart is reached when all lines
-- before it are blank, are comments or hold an expression.
theorem parse_faults_iff (text : String) (kind : TokenKind) :
    (∀ fault, parse text kind = .error (.fault fault) ↔
      kind = .floatingChannel ∧ fault = .splitCharacter ∧ ∃ before line after,
        Text.splitAt '\n' text.toList = before ++ line :: after ∧
        (∀ l ∈ before, ∃ read, FloatingLine.read l = .ok read) ∧
        FloatingExpr.CutsCharacter (FloatingLine.expression line)) ∧
    ∀ cut ∈ cuts text.toList kind, cut.IsExact := by
  refine ⟨fun fault => ?_, fun cut => isExact_of_mem_cuts⟩
  unfold parse
  rw [map_eq_error]
  cases kind
  case floatingChannel =>
    simp only [parseValue, map_eq_error, FloatingList.parse_eq_fault_iff, true_and]
  all_goals simp [parseValue, mapError_eq_error]

theorem parse_band_of_wide_character :
    ¬ ∀ text kind, (∃ t, parse text kind = .ok t) ∨ ∃ f, parse text kind = .error (.refused f) := by
  intro h
  have fault : parse "6.0.日" .floatingChannel = .error (.fault .splitCharacter) := by decide
  have := h "6.0.日" .floatingChannel
  simp [fault] at this

end Token
end Repin
