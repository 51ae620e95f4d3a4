import Mathlib.Data.List.Induction
import Mathlib.Data.List.Perm.Subperm
import Repin.Proofs.Except
/-!
# Ties with the greatest so far

A search for the greatest key that compares each member with the greatest one so far, and refuses an
equal one, finds a tie only where nothing greater stands in front of it. Which ties are found depends on
the order, except for a tie of the greatest ones.
-/
namespace Repin

variable {α β ε : Type} {key : α → Nat} {xs ys : List α} {x y best top : α}

-- A member has the greatest key of those in front of it.
def Ties (key : α → Nat) (xs : List α) : Prop :=
  ∃ front x after, xs = front ++ x :: after ∧ (∃ y ∈ front, key y = key x) ∧ ∀ y ∈ front, key y ≤ key x

-- No two members have one key.
def Distinct (key : α → Nat) (xs : List α) : Prop :=
  xs.Pairwise fun x y => key x ≠ key y

-- A member above all others.
def IsTop (key : α → Nat) (xs : List α) (top : α) : Prop :=
  ∃ before after, xs = before ++ top :: after ∧ ∀ y ∈ before ++ after, key y < key top

-- Two members with one key, and none above them.
def TopTied (key : α → Nat) (xs : List α) : Prop :=
  ∃ x y, [x, y].Subperm xs ∧ key x = key y ∧ ∀ z ∈ xs, key z ≤ key x

theorem ties_append_singleton :
    Ties key (xs ++ [x]) ↔ Ties key xs ∨ (∃ y ∈ xs, key y = key x) ∧ ∀ y ∈ xs, key y ≤ key x := by
  constructor
  case mp =>
    rintro ⟨front, z, after, heq, same, le⟩
    obtain rfl | ⟨after, last, rfl⟩ := List.eq_nil_or_concat' after
    · obtain ⟨rfl, hz⟩ := List.append_inj' heq rfl
      cases hz
      exact .inr ⟨same, le⟩
    · rw [← List.cons_append, ← List.append_assoc] at heq
      obtain ⟨rfl, _⟩ := List.append_inj' heq rfl
      exact .inl ⟨front, z, after, rfl, same, le⟩
  case mpr =>
    rintro (⟨front, z, after, rfl, same, le⟩ | ⟨same, le⟩)
    · exact ⟨front, z, after ++ [x], by simp, same, le⟩
    · exact ⟨xs, x, [], rfl, same, le⟩

-- The first member is below those that tie.
theorem Ties.exists_sublist (h : Ties key (best :: xs)) :
    ∃ x y, [x, y].Sublist (best :: xs) ∧ key x = key y ∧ key best ≤ key y := by
  obtain ⟨front, y, after, heq, ⟨x, hx, same⟩, le⟩ := h
  refine ⟨x, y, ?_, same, ?_⟩
  case _ =>
    rw [heq]
    exact (List.singleton_sublist.mpr hx).append (List.singleton_sublist.mpr List.mem_cons_self)
  case _ =>
    cases front with
    | nil => cases hx
    | cons first front =>
      cases heq
      exact le best List.mem_cons_self

theorem not_distinct_iff : ¬ Distinct key xs ↔ ∃ x y, [x, y].Sublist xs ∧ key x = key y := by
  simp [Distinct, List.pairwise_iff_forall_sublist]

theorem Distinct.not_ties (h : Distinct key xs) : ¬ Ties key xs := by
  intro ties
  cases xs with
  | nil =>
    obtain ⟨front, y, after, heq, _⟩ := ties
    simp at heq
  | cons best xs =>
    obtain ⟨x, y, sub, same, _⟩ := ties.exists_sublist
    exact not_distinct_iff.mpr ⟨x, y, sub, same⟩ h

namespace IsTop

theorem mem (h : IsTop key xs top) : top ∈ xs := by
  obtain ⟨before, after, rfl, _⟩ := h
  simp

theorem eq_or_lt (h : IsTop key xs top) (hy : y ∈ xs) : y = top ∨ key y < key top := by
  obtain ⟨before, after, rfl, lt⟩ := h
  simp only [List.mem_append, List.mem_cons] at hy lt
  obtain hy | rfl | hy := hy
  · exact .inr (lt y (.inl hy))
  · exact .inl rfl
  · exact .inr (lt y (.inr hy))

theorem le (h : IsTop key xs top) (hy : y ∈ xs) : key y ≤ key top := by
  obtain rfl | lt := h.eq_or_lt hy
  · exact Nat.le_refl _
  · exact Nat.le_of_lt lt

-- There is one at most, in any order.
theorem unique (h : IsTop key xs x) (h' : IsTop key ys y) (perm : ys.Perm xs) : y = x := by
  obtain rfl | lt := h.eq_or_lt (perm.mem_iff.mp h'.mem)
  · rfl
  · have := h'.le (perm.mem_iff.mpr h.mem)
    omega

theorem append_singleton (h : IsTop key xs top) (lt : key x < key top) :
    IsTop key (xs ++ [x]) top := by
  obtain ⟨before, after, rfl, others⟩ := h
  refine ⟨before, after ++ [x], by simp, ?_⟩
  rw [← List.append_assoc, List.forall_mem_append]
  exact ⟨others, List.forall_mem_singleton.mpr lt⟩

theorem of_lt (h : IsTop key xs top) (lt : key top < key x) : IsTop key (xs ++ [x]) x := by
  refine ⟨xs, [], rfl, fun y hy => ?_⟩
  rw [List.append_nil] at hy
  exact Nat.lt_of_le_of_lt (h.le hy) lt

theorem not_topTied (h : IsTop key xs top) : ¬ TopTied key xs := by
  rintro ⟨x, y, sub, same, le⟩
  have highest := Nat.le_antisymm (h.le (sub.subset List.mem_cons_self)) (le top h.mem)
  obtain ⟨before, after, rfl, lt⟩ := h
  have others : (before ++ after).countP (fun z => key z = key top) = 0 := by
    rw [List.countP_eq_zero]
    intro z hz
    simpa using Nat.ne_of_lt (lt z hz)
  have two := sub.countP_le fun z => key z = key top
  simp only [List.countP_append, List.countP_cons] at others two
  simp [← same, highest] at two
  omega

end IsTop

-- Of some members there is one above all others, or the greatest ones tie.
theorem isTop_or_topTied (ne : xs ≠ []) : (∃ top, IsTop key xs top) ∨ TopTied key xs := by
  induction xs using List.reverseRecOn with
  | nil => contradiction
  | append_singleton xs x ih =>
    by_cases none : xs = []
    case pos =>
      subst none
      exact .inl ⟨x, [], [], rfl, by simp⟩
    case neg =>
      obtain ⟨top, h⟩ | ⟨y, z, sub, same, le⟩ := ih none
      case inl =>
        obtain lt | eq | gt := Nat.lt_trichotomy (key x) (key top)
        case inl => exact .inl ⟨top, h.append_singleton lt⟩
        case inr.inl =>
          refine .inr ⟨top, x, ?_, eq.symm, ?_⟩
          · exact ((List.singleton_sublist.mpr h.mem).append (.refl [x])).subperm
          · rw [List.forall_mem_append]
            exact ⟨fun y => h.le, by simp [eq]⟩
        case inr.inr => exact .inl ⟨x, h.of_lt gt⟩
      case inr =>
        by_cases lt : key y < key x
        case pos =>
          refine .inl ⟨x, xs, [], rfl, fun z hz => ?_⟩
          rw [List.append_nil] at hz
          exact Nat.lt_of_le_of_lt (le z hz) lt
        case neg =>
          refine .inr ⟨y, z, sub.trans (List.sublist_append_left _ _).subperm, same, ?_⟩
          rw [List.forall_mem_append]
          exact ⟨le, by simpa using lt⟩

theorem TopTied.of_perm (h : TopTied key xs) (perm : xs.Perm ys) : TopTied key ys := by
  obtain ⟨x, y, sub, same, le⟩ := h
  exact ⟨x, y, sub.trans perm.subperm, same, fun z hz => le z (perm.mem_iff.mpr hz)⟩

theorem Distinct.of_perm (h : Distinct key xs) (perm : xs.Perm ys) : Distinct key ys :=
  (perm.pairwise_iff fun ne => Ne.symm ne).mp h

-- A step between states, each of which stands for the greatest member so far: the greater of two stays,
-- and equal ones are refused.
structure Contest (key : α → Nat) (among : α → Prop) (state : α → β) (step : β → α → Except ε β) :
    Prop where
  tie {best x : α} : among best → among x → key x = key best → ∃ e, step (state best) x = .error e
  greater {best x : α} : among best → among x → key best < key x → step (state best) x = .ok (state x)
  less {best x : α} : among best → among x → key x < key best → step (state best) x = .ok (state best)

-- A contest ends at the first tie, or with the greatest member.
theorem Contest.foldlM_cases {among : α → Prop} {state : α → β} {step : β → α → Except ε β}
    (h : Contest key among state step) (hb : among best) (hxs : ∀ x ∈ xs, among x) :
    (Ties key (best :: xs) ∧ ∃ e, xs.foldlM step (state best) = .error e) ∨
      ¬ Ties key (best :: xs) ∧ ∃ top, IsTop key (best :: xs) top ∧
        xs.foldlM step (state best) = .ok (state top) := by
  induction xs using List.reverseRecOn with
  | nil =>
    refine .inr ⟨Distinct.not_ties (List.pairwise_singleton ..), best, ?_, rfl⟩
    exact ⟨[], [], rfl, by simp⟩
  | append_singleton xs x ih =>
    obtain ⟨hxs, hx⟩ := List.forall_mem_append.mp hxs
    have hx := hx x List.mem_cons_self
    simp only [← List.cons_append, ties_append_singleton, List.foldlM_append]
    obtain ⟨ties, e, he⟩ | ⟨none, top, isTop, run⟩ := ih hxs
    case inl => exact .inl ⟨.inl ties, e, by rw [he, error_bind]⟩
    case inr =>
      have ht : among top := (List.forall_mem_cons.mpr ⟨hb, hxs⟩) top isTop.mem
      have last : [x].foldlM step (state top) = step (state top) x := by simp
      rw [run, ok_bind, last]
      obtain lt | eq | gt := Nat.lt_trichotomy (key x) (key top)
      case inl =>
        refine .inr ⟨?_, top, isTop.append_singleton lt, h.less ht hx lt⟩
        rintro (ties | ⟨_, le⟩)
        · exact none ties
        · exact absurd (le top isTop.mem) (Nat.not_le.mpr lt)
      case inr.inl =>
        refine .inl ⟨.inr ⟨⟨top, isTop.mem, eq.symm⟩, fun y hy => ?_⟩, h.tie ht hx eq⟩
        exact eq ▸ isTop.le hy
      case inr.inr =>
        refine .inr ⟨?_, x, isTop.of_lt gt, h.greater ht hx gt⟩
        rintro (ties | ⟨⟨y, hy, same⟩, _⟩)
        · exact none ties
        · have := isTop.le hy
          omega

end Repin
