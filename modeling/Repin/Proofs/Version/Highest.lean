import Repin.Proofs.Version.Floating
/-!
# The highest entry of a list

An entry has a comparable form exactly if its third number fits into 64 bits, which a band may miss: it
is read up to 64 bits, and its patches are a hundred times as large. Where all entries of a list fit, or
there is only one, the highest entry is the first of those that none outranks. A list of several entries
with one that does not fit has no highest entry, and no text for a channel that it does not reach.

Main statement: `FloatingList.highest?_ranked_iff_fits`.
-/
namespace Repin.FloatingList

variable {text : String} {l : FloatingList}

theorem upgraded_eq_error_iff (h : parse text = .ok l) (c : Channel) (newline : Newline) :
    (∃ fault, l.upgraded c newline = .error fault) ↔ l.isAtLeast c = false ∧ ¬ l.Ranks := by
  rw [exists_error_iff]
  constructor
  case mp =>
    intro none
    have below : l.isAtLeast c = false := by
      by_contra reached
      exact none ⟨_, upgraded_of_isAtLeast (by simpa using reached)⟩
    exact ⟨below, fun ranks => none (exists_upgraded c newline h ranks)⟩
  case mpr =>
    rintro ⟨below, large⟩ ⟨_, hu⟩
    exact large (ranks_of_upgraded h below hu)

-- The comparable form of an entry is exact, and there is none if the third number does not fit. The
-- highest entry is the right one if it is found, which a sole entry is, and one of several if all fit.
theorem highest?_ranked_iff_fits (h : parse text = .ok l) :
    (∀ e ∈ l.entries, if e.expr.Fits then ∃ v, e.expr.toNumeric = .ok v ∧ e.expr.IsForm v
      else e.expr.toNumeric = .error .overflow) ∧
    (if l.Ranks then ∃ top, l.highest? = .ok (some top) ∧ l.IsHighest top
      else l.highest? = .error .overflow) ∧
    ∀ c newline, (∃ fault, l.upgraded c newline = .error fault) ↔ l.isAtLeast c = false ∧ ¬ l.Ranks := by
  refine ⟨fun e _ => ?form, ?highest, upgraded_eq_error_iff h⟩
  case form =>
    split
    case isTrue fits => exact FloatingExpr.exists_toNumeric fits
    case isFalse large => exact FloatingExpr.toNumeric_eq_error large
  case highest =>
    obtain ⟨ranks, found⟩ | ⟨large, fault⟩ := highest?_cases (entries_ne_nil h)
    · rwa [if_pos ranks]
    · rwa [if_neg large]

-- The greatest band that fits, and a lower one.
theorem highest?_ranked_iff_fits_greatest :
    let text := "6.0.1xx\n6.0.184467440737095516xx"
    ∃ l, parse text = .ok l ∧
    (∀ e ∈ l.entries, if e.expr.Fits then ∃ v, e.expr.toNumeric = .ok v ∧ e.expr.IsForm v
      else e.expr.toNumeric = .error .overflow) ∧
    (if l.Ranks then ∃ top, l.highest? = .ok (some top) ∧ l.IsHighest top
      else l.highest? = .error .overflow) ∧
    ∀ c newline, (∃ fault, l.upgraded c newline = .error fault) ↔ l.isAtLeast c = false ∧ ¬ l.Ranks := by
  intro text
  have h : parse text = .ok ⟨[
      .entry "" "6.0.1xx" "" ⟨.band 6 0 1 .lower, none⟩,
      .entry "" "6.0.184467440737095516xx" "" ⟨.band 6 0 184467440737095516 .lower, none⟩]⟩ := by
    decide +kernel
  exact ⟨_, h, highest?_ranked_iff_fits h⟩

-- The next band has no comparable form. It is the highest of two, but no highest entry is found.
theorem highest?_overflows :
    let text := "6.0.184467440737095517xx\n6.0.1XX"
    ∃ l top, parse text = .ok l ∧ l.IsHighest top ∧ top.expr.toNumeric = .error .overflow ∧
      l.highest? = .error .overflow ∧ l.upgraded (.ofNumbers 8 0) .lf = .error .overflow := by
  intro text
  have h : parse text = .ok ⟨[
      .entry "" "6.0.184467440737095517xx" "" ⟨.band 6 0 184467440737095517 .lower, none⟩,
      .entry "" "6.0.1XX" "" ⟨.band 6 0 1 .upper, none⟩]⟩ := by
    decide +kernel
  refine ⟨_, ⟨.band 6 0 184467440737095517 .lower, none⟩, h, ⟨[], [_], rfl, by simp, ?_⟩,
    by decide +kernel, by decide +kernel, by decide +kernel⟩
  rintro e (_ | ⟨_, ⟨⟩⟩) above
  cases above with
  | numbers lt => exact absurd lt (by decide)
  | prerelease _ some => exact some rfl
  | labels _ some => exact some rfl

end Repin.FloatingList
