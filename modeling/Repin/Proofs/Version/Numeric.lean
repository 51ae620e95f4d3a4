import Repin.Version.Channel
/-!
# Precedence and channels

Precedence orders the versions, and a version of no lower precedence reaches every channel that the
lower one reaches.
-/
namespace Repin

variable {v w : NumericVersion} {major minor : UInt64}

theorem PreLabel.compare_swap (l m : PreLabel) : compare l m = (compare m l).swap := by
  cases l <;> cases m
  case numeric.numeric m n =>
    change compare m n = (compare n m).swap
    exact Std.OrientedOrd.eq_swap
  case alpha.alpha s _ t _ =>
    change compare s t = (compare t s).swap
    exact Std.OrientedOrd.eq_swap
  all_goals rfl

instance : Std.OrientedOrd PreLabel where
  eq_swap := PreLabel.compare_swap _ _

-- Numbers rank below texts, so only labels of one form are left to compare.
instance : Std.TransOrd PreLabel where
  isLE_trans {l m n} hlm hmn := by
    cases l <;> cases m <;> cases n
    case numeric.numeric.numeric => exact Std.TransOrd.isLE_trans (α := UInt64) hlm hmn
    case alpha.alpha.alpha => exact Std.TransOrd.isLE_trans (α := String) hlm hmn
    all_goals
      first
      | rfl
      | exact absurd hlm Bool.false_ne_true
      | exact absurd hmn Bool.false_ne_true

theorem PreLabel.compareLists_eq (as bs : List PreLabel) :
    PreLabel.compareLists as bs = compare as bs := by
  induction as generalizing bs with
  | nil => cases bs <;> simp [PreLabel.compareLists]
  | cons a as ih =>
    cases bs with
    | nil => simp [PreLabel.compareLists]
    | cons b bs => rw [PreLabel.compareLists, ih, List.compare_cons_cons]

namespace NumericVersion

theorem comparePrerelease_swap (as bs : List PreLabel) :
    comparePrerelease as bs = (comparePrerelease bs as).swap := by
  cases as <;> cases bs
  case cons.cons a as b bs =>
    simp only [comparePrerelease, PreLabel.compareLists_eq]
    exact Std.OrientedOrd.eq_swap
  all_goals rfl

theorem compare_swap (v w : NumericVersion) : compare v w = (compare w v).swap := by
  have number (m n : UInt64) : compare m n = (compare n m).swap := Std.OrientedCmp.eq_swap
  change Ordering.then _ _ = Ordering.swap (Ordering.then _ _)
  rw [Ordering.swap_then, Ordering.swap_then, Ordering.swap_then, ← number, ← number, ← number,
    ← comparePrerelease_swap]

instance : Std.TransCmp comparePrerelease where
  eq_swap := comparePrerelease_swap _ _
  isLE_trans {as bs cs} hab hbc := by
    cases as <;> cases bs <;> cases cs
    case cons.cons.cons =>
      simp only [comparePrerelease, PreLabel.compareLists_eq] at *
      exact Std.TransOrd.isLE_trans hab hbc
    all_goals
      first
      | rfl
      | exact absurd hab Bool.false_ne_true
      | exact absurd hbc Bool.false_ne_true

instance : Std.TransCmp fun v w : NumericVersion =>
    comparePrerelease v.prerelease w.prerelease where
  eq_swap := comparePrerelease_swap _ _
  isLE_trans hab hbc :=
    have order : Std.TransCmp comparePrerelease := inferInstance
    order.isLE_trans hab hbc

-- Precedence looks at one part after the other.
instance : Std.TransOrd NumericVersion :=
  inferInstanceAs <| Std.TransCmp <|
    compareLex (compareOn NumericVersion.major) <|
    compareLex (compareOn fun v : NumericVersion => v.minor.getD 0) <|
    compareLex (compareOn fun v : NumericVersion => v.patch.getD 0) <|
    fun v w : NumericVersion => comparePrerelease v.prerelease w.prerelease

theorem lt_or_eq_of_then_ne_gt {o p : Ordering} (h : o.then p ≠ .gt) :
    o = .lt ∨ (o = .eq ∧ p ≠ .gt) := by
  cases o <;> simp_all

-- Precedence looks at the two numbers of the channel first.
theorem reaches_of_compare_ne_gt (h : compare v w ≠ .gt)
    (hv : reaches v.major (v.minor.getD 0) major minor) :
    reaches w.major (w.minor.getD 0) major minor := by
  have lt_of {m n : UInt64} (h : compare m n = .lt) : m < n := Std.compare_eq_lt.mp h
  have eq_of {m n : UInt64} (h : compare m n = .eq) : m = n := Std.LawfulEqOrd.eq_of_compare h
  simp only [reaches, Bool.or_eq_true, Bool.and_eq_true, decide_eq_true_eq, beq_iff_eq] at hv ⊢
  cases lt_or_eq_of_then_ne_gt h
  case inl lt =>
    cases hv
    case inl hv => exact .inl (UInt64.lt_trans hv (lt_of lt))
    case inr hv => exact .inl (hv.left ▸ lt_of lt)
  case inr rest =>
    have major := eq_of rest.left
    cases lt_or_eq_of_then_ne_gt rest.right
    case inl lt =>
      cases hv
      case inl hv => exact .inl (major ▸ hv)
      case inr hv =>
        exact .inr ⟨hv.left.trans major, UInt64.le_of_lt (UInt64.lt_of_le_of_lt hv.right (lt_of lt))⟩
    case inr rest =>
      have minor := eq_of rest.left
      rwa [← major, ← minor]

end NumericVersion

namespace Channel

theorem isReachedBy_self (c : Channel) : c.isReachedBy c.major c.minor := by
  simp [isReachedBy, reaches]

theorem toList_render (c : Channel) :
    c.render.toList = (Text.writeNumber c.major).toList ++ '.' :: (Text.writeNumber c.minor).toList :=
  by simp [render]

end Channel

variable {α : Type} {key : α → NumericVersion} {best a : α} {as : List α}

-- The step of the search for the highest member.
def higher (key : α → NumericVersion) (best b : α) : α :=
  if compare (key b) (key best) = .gt then b else best

theorem foldl_higher_mem (best : α) (as : List α) : as.foldl (higher key) best ∈ best :: as := by
  induction as generalizing best with
  | nil => simp
  | cons a as ih =>
    have hm := ih (higher key best a)
    simp only [List.foldl_cons, List.mem_cons] at hm ⊢
    unfold higher at hm ⊢
    split at hm <;> grind

-- A member between lower ones and ones that are no higher: the first of the highest.
structure IsFirstHighest (key : α → NumericVersion) (before : List α) (top : α) (after : List α) :
    Prop where
  lower : ∀ b ∈ before, compare (key b) (key top) = .lt
  rest : ∀ b ∈ after, compare (key b) (key top) ≠ .gt

-- One step of the search: the member that gave way was lower, or came later and is no higher.
theorem IsFirstHighest.of_higher {best top : α} {before after : List α}
    (heq : higher key best a :: as = before ++ top :: after)
    (h : IsFirstHighest key before top after) :
    ∃ before after, best :: a :: as = before ++ top :: after ∧
      IsFirstHighest key before top after := by
  unfold higher at heq
  split at heq
  case isTrue hc =>
    have below : compare (key best) (key a) = .lt := Std.OrientedCmp.lt_of_gt hc
    refine ⟨best :: before, after, by rw [heq, List.cons_append], ?_, h.rest⟩
    rintro b (_ | ⟨_, hb⟩)
    case tail => exact h.lower b hb
    case head =>
      cases before with
      | nil => exact (List.cons.inj heq).left ▸ below
      | cons x before =>
        obtain ⟨rfl, _⟩ := List.cons.inj heq
        exact Std.TransCmp.lt_trans below (h.lower _ List.mem_cons_self)
  case isFalse hc =>
    cases before with
    | nil =>
      obtain ⟨rfl, rfl⟩ := List.cons.inj heq
      exact ⟨[], a :: as, rfl, by simp, List.forall_mem_cons.mpr ⟨hc, h.rest⟩⟩
    | cons x before =>
      obtain ⟨rfl, rfl⟩ := List.cons.inj heq
      have ⟨first, lower⟩ := List.forall_mem_cons.mp h.lower
      have second : compare (key a) (key top) = .lt :=
        Std.TransCmp.lt_of_isLE_of_lt (Ordering.isLE_iff_ne_gt.mpr hc) first
      exact ⟨best :: a :: before, after, rfl,
        List.forall_mem_cons.mpr ⟨first, List.forall_mem_cons.mpr ⟨second, lower⟩⟩, h.rest⟩

theorem isFirstHighest_foldl_higher (best : α) (as : List α) :
    ∃ before after, best :: as = before ++ as.foldl (higher key) best :: after ∧
      IsFirstHighest key before (as.foldl (higher key) best) after := by
  induction as generalizing best with
  | nil => exact ⟨[], [], rfl, by simp, by simp⟩
  | cons a as ih =>
    have ⟨before, after, heq, h⟩ := ih (higher key best a)
    exact h.of_higher heq

theorem isFirstHighest_of_firstHighest? (h : firstHighest? key as = some a) :
    ∃ before after, as = before ++ a :: after ∧ IsFirstHighest key before a after := by
  cases as with
  | nil => simp [firstHighest?] at h
  | cons b bs =>
    simp only [firstHighest?, Option.some.injEq] at h
    exact h ▸ isFirstHighest_foldl_higher b bs

theorem firstHighest?_mem (h : firstHighest? key as = some a) : a ∈ as := by
  cases as with
  | nil => simp [firstHighest?] at h
  | cons b bs =>
    simp only [firstHighest?, Option.some.injEq] at h
    exact h ▸ foldl_higher_mem b bs

-- Once a member reaches the channel, so does the best one from there on.
theorem reaches_higher {best b : α}
    (h : reaches (key best).major ((key best).minor.getD 0) major minor ∨
      reaches (key b).major ((key b).minor.getD 0) major minor) :
    reaches (key (higher key best b)).major ((key (higher key best b)).minor.getD 0) major minor := by
  unfold higher
  split
  case isTrue hc =>
    have hs : compare (key best) (key b) ≠ .gt := by simp [NumericVersion.compare_swap, hc]
    cases h
    case inl h => exact NumericVersion.reaches_of_compare_ne_gt hs h
    case inr h => exact h
  case isFalse hc =>
    cases h
    case inl h => exact h
    case inr h => exact NumericVersion.reaches_of_compare_ne_gt hc h

theorem reaches_foldl_higher {best : α} (hm : a ∈ best :: as)
    (h : reaches (key a).major ((key a).minor.getD 0) major minor) :
    let top := as.foldl (higher key) best
    reaches (key top).major ((key top).minor.getD 0) major minor := by
  induction as generalizing best a with
  | nil => simpa using (List.mem_singleton.mp hm) ▸ h
  | cons b bs ih =>
    obtain rfl | hm := List.mem_cons.mp hm
    · exact ih List.mem_cons_self (reaches_higher (.inl h))
    · obtain rfl | hm := List.mem_cons.mp hm
      · exact ih List.mem_cons_self (reaches_higher (.inr h))
      · exact ih (List.mem_cons_of_mem _ hm) h

-- The highest member reaches every channel that some member reaches.
theorem exists_firstHighest? (key : α → NumericVersion) (hm : a ∈ as)
    (h : reaches (key a).major ((key a).minor.getD 0) major minor) :
    ∃ top, firstHighest? key as = some top ∧
      reaches (key top).major ((key top).minor.getD 0) major minor := by
  cases as with
  | nil => cases hm
  | cons b bs => exact ⟨_, rfl, reaches_foldl_higher hm h⟩

end Repin
