import Repin.Span
/-!
# Spans in order

A span that ends before another one starts is the lesser of the two and does not overlap it. Containment
is an order of its own.
-/
namespace Repin

variable {s t u : Span}

-- A byte at least lies between the spans.
def Span.Precedes (s t : Span) : Prop :=
  s.stop < t.start

theorem Span.Precedes.compare_eq (h : s.Precedes t) : compare s t = .lt := by
  have order := s.start_le_stop
  have lt : compare s.start t.start = .lt := Nat.compare_eq_lt.mpr (Nat.lt_of_le_of_lt order h)
  change (compare s.start t.start).then (compare s.stop t.stop) = .lt
  rw [lt]
  rfl

theorem Span.Precedes.ne (h : s.Precedes t) : s ≠ t := by
  rintro rfl
  have order := s.start_le_stop
  unfold Span.Precedes at h
  omega

theorem Span.Precedes.overlaps_eq (h : s.Precedes t) : s.overlaps t = false := by
  have order : ¬ t.start < s.stop := Nat.not_lt.mpr (Nat.le_of_lt h)
  simp [overlaps, order]

-- The order of spans, by their bounds.
theorem Span.isLE_compare_iff : (compare s t).isLE ↔
    s.start < t.start ∨ s.start = t.start ∧ s.stop ≤ t.stop := by
  change ((compare s.start t.start).then (compare s.stop t.stop)).isLE ↔ _
  rcases Nat.lt_trichotomy s.start t.start with lt | eq | gt
  case inl => simp [Nat.compare_eq_lt.mpr lt, lt]
  case inr.inl => simp [eq, Nat.isLE_compare]
  case inr.inr => simp [Nat.compare_eq_gt.mpr gt, Nat.not_lt_of_gt gt, Nat.ne_of_gt gt]

theorem Span.start_le_start (h : (compare s t).isLE) : s.start ≤ t.start := by
  rw [isLE_compare_iff] at h
  omega

theorem Span.isLE_compare_trans (hst : (compare s t).isLE) (htu : (compare t u).isLE) :
    (compare s u).isLE := by
  rw [isLE_compare_iff] at *
  omega

theorem Span.isLE_compare_total (s t : Span) : (compare s t).isLE || (compare t s).isLE := by
  rw [Bool.or_eq_true, isLE_compare_iff, isLE_compare_iff]
  omega

-- Of two spans in order, the second starts behind the first exactly when they do not overlap. The order
-- of the ends decides where both have one start.
theorem Span.overlaps_eq_false_iff (h : (compare s t).isLE) :
    s.overlaps t = false ↔ s.stop ≤ t.start := by
  have := s.start_le_stop
  have := t.start_le_stop
  rw [isLE_compare_iff] at h
  simp only [overlaps, Bool.and_eq_false_iff, decide_eq_false_iff_not]
  omega

theorem Span.compare_eq_lt_iff : compare s t = .lt ↔
    s.start < t.start ∨ s.start = t.start ∧ s.stop < t.stop := by
  change (compare s.start t.start).then (compare s.stop t.stop) = .lt ↔ _
  rcases Nat.lt_trichotomy s.start t.start with lt | eq | gt
  case inl => simp [Nat.compare_eq_lt.mpr lt, lt]
  case inr.inl => simp [eq, Nat.compare_eq_lt]
  case inr.inr => simp [Nat.compare_eq_gt.mpr gt, Nat.not_lt_of_gt gt, Nat.ne_of_gt gt]

theorem Span.lt_or_eq_or_gt (s t : Span) : compare s t = .lt ∨ s = t ∨ compare t s = .lt := by
  rw [compare_eq_lt_iff, compare_eq_lt_iff]
  cases s
  cases t
  simp only [mk.injEq]
  omega

theorem Span.isLE_of_compare_eq_lt (h : compare s t = .lt) : (compare s t).isLE := by
  rw [h]
  rfl

theorem Span.not_lt_of_isLE (h : (compare s t).isLE) : compare t s ≠ .lt := by
  rw [isLE_compare_iff] at h
  rw [ne_eq, compare_eq_lt_iff]
  omega

theorem Span.overlaps_self : s.overlaps s = !s.isEmpty := by
  have := s.start_le_stop
  unfold overlaps isEmpty
  rw [Bool.eq_iff_iff]
  simp only [Bool.and_eq_true, decide_eq_true_eq, Bool.not_eq_true', beq_eq_false_iff_ne]
  omega

-- An empty span overlaps none that comes behind it.
theorem Span.overlaps_of_isEmpty (he : s.isEmpty) (h : (compare s t).isLE) : s.overlaps t = false := by
  rw [isLE_compare_iff] at h
  simp only [isEmpty, beq_iff_eq] at he
  simp only [overlaps, Bool.and_eq_false_iff, decide_eq_false_iff_not]
  omega

theorem Span.isLE_compare_of_stop_le (h : s.stop ≤ t.start) : (compare s t).isLE := by
  have := s.start_le_stop
  have := t.start_le_stop
  rw [isLE_compare_iff]
  omega

theorem Span.contains_iff : s.contains t ↔ s.start ≤ t.start ∧ t.stop ≤ s.stop := by
  simp [contains]

theorem Span.contains_trans (hst : s.contains t) (htu : t.contains u) : s.contains u := by
  rw [contains_iff] at *
  omega

theorem Span.eq_of_contains (hst : s.contains t) (hts : t.contains s) : s = t := by
  rw [contains_iff] at hst hts
  cases s
  cases t
  simp only [mk.injEq] at hst hts ⊢
  omega

theorem Span.eq_ofLength {start length : Nat} (hs : s.start = start)
    (hl : s.stop = start + length) : s = .ofLength start length := by
  cases s
  simp only [ofLength, mk.injEq]
  exact ⟨hs, hl⟩

theorem Span.narrow_eq_ok {first last : Nat} (hf : first ≤ last) (hl : s.start + last ≤ s.stop) :
    s.narrow first last = .ok (.ofLength (s.start + first) (last - first)) := by
  have order : s.start + first ≤ s.start + last := by omega
  simp only [narrow, hl, if_true, Span.of, order, dif_pos]
  exact congrArg _ (eq_ofLength rfl (by simp only; omega))

end Repin
