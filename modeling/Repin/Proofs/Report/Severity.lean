import Mathlib.Logic.Basic
import Repin.Report.Basic
/-!
# The worst of severities

Severities are in a line, so whatever order they come in, the worst of them is the same.
-/
namespace Repin.Severity

variable {a b : Severity} {levels levels' : List Severity}

theorem eq_of_rank (h : a.rank = b.rank) : a = b := by
  cases a <;> cases b <;> first | rfl | cases h

instance : Std.Associative worse :=
  ⟨fun a b c => eq_of_rank (by simp only [rank_worse, Nat.max_assoc])⟩

instance : Std.Commutative worse :=
  ⟨fun a b => eq_of_rank (by rw [rank_worse, rank_worse, Nat.max_comm])⟩

theorem worse_of_rank_le (h : b.rank ≤ a.rank) : a.worse b = a :=
  eq_of_rank (by rw [rank_worse, Nat.max_eq_left h])

-- The worst of some severities.
def worst (levels : List Severity) : Severity :=
  levels.foldl worse none

@[simp]
theorem worst_nil : worst [] = none := rfl

@[simp]
theorem worst_cons : worst (a :: levels) = a.worse (worst levels) := by
  have moved : levels.foldl worse (a.worse none) = a.worse (levels.foldl worse none) := List.foldl_assoc
  rw [worst, worst, List.foldl_cons, none_worse, ← moved, worse_none]

@[simp]
theorem worst_append : worst (levels ++ levels') = (worst levels).worse (worst levels') := by
  induction levels with
  | nil => rw [List.nil_append, worst_nil, none_worse]
  | cons a levels ih =>
    rw [List.cons_append, worst_cons, worst_cons, ih]
    ac_rfl

theorem rank_worst_le_iff {n : Nat} : (worst levels).rank ≤ n ↔ ∀ level ∈ levels, level.rank ≤ n := by
  induction levels with
  | nil => simp [worst, rank]
  | cons a levels ih => rw [worst_cons, rank_worse, Nat.max_le, ih, List.forall_mem_cons]

theorem worst_eq_none_iff : worst levels = none ↔ ∀ level ∈ levels, level = none := by
  have zero (a : Severity) : a = none ↔ a.rank ≤ 0 := by cases a <;> simp [rank]
  simp only [zero, rank_worst_le_iff]

theorem worst_of_mild (mild : ∀ level ∈ levels, level = none ∨ level = warning) :
    worst levels = none ∨ worst levels = warning := by
  induction levels with
  | nil => exact .inl rfl
  | cons a levels ih =>
    have ⟨first, rest⟩ := List.forall_mem_cons.mp mild
    rw [worst_cons]
    rcases first with rfl | rfl <;> rcases ih rest with h | h <;> rw [h] <;> decide

-- Nothing is worse than an error.
theorem worst_eq_error_iff : worst levels = error ↔ error ∈ levels := by
  have below (a : Severity) : a ≠ error ↔ a.rank ≤ 2 := by cases a <;> simp [rank]
  rw [← not_iff_not, ← ne_eq, below, rank_worst_le_iff]
  simp only [← below]
  exact ⟨fun all h => all error h rfl, fun h level listed same => h (same ▸ listed)⟩

end Repin.Severity
