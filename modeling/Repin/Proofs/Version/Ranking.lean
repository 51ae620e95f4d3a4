import Repin.Proofs.Except
import Repin.Proofs.Version.Precedence
import Repin.Version.Floating
/-!
# The ranking of floating expressions

Expressions are ranked by three integers, where a feature band counts as its first patch number, and
then by their labels. The comparable form has 64 bits for each number, so there is none for a band whose
first patch number is larger. In a list of several entries every one is compared: the highest entry is
found where all of them have a comparable form, and it is the first of those that none outranks.
-/
namespace Repin

variable {v w : NumericVersion}

-- The numbers of a version, where a missing one is zero.
def NumericVersion.numbers (v : NumericVersion) : List Nat :=
  [v.major.toNat, (v.minor.getD 0).toNat, (v.patch.getD 0).toNat]

namespace FloatingExpr

variable {e f : FloatingExpr} {b : UInt64}

-- The third number, of any size. A band counts as its first patch number.
def patchNumber : FloatingExpr → Nat
  | major _ | anyMinor .. | minor .. | anyPatch .. => 0
  | band _ _ b _ => b.toNat * 100
  | full _ _ p _ => p.toNat

-- The numbers of an expression, where a missing one is zero.
def numbers (e : FloatingExpr) : List Nat :=
  [e.majorNumber.toNat, (e.minorNumber?.getD 0).toNat, e.patchNumber]

def labels : FloatingExpr → List PreLabel
  | full _ _ _ labels => labels
  | major _ | anyMinor .. | minor .. | anyPatch .. | band .. => []

-- The rules of precedence on the integers of two expressions.
inductive Below (e f : FloatingExpr) : Prop where
  | numbers : e.numbers < f.numbers → Below e f
  | prerelease : e.numbers = f.numbers → e.labels ≠ [] → f.labels = [] → Below e f
  | labels : e.numbers = f.numbers → e.labels ≠ [] → PreLabel.ListBefore e.labels f.labels →
    Below e f

-- Whether the third number is one of 64 bits.
def Fits (e : FloatingExpr) : Prop :=
  e.patchNumber < UInt64.size

instance : Decidable e.Fits :=
  inferInstanceAs (Decidable (_ < _))

-- A comparable form that says what the expression says.
structure IsForm (e : FloatingExpr) (v : NumericVersion) : Prop where
  numbers : v.numbers = e.numbers
  labels : v.prerelease = e.labels

theorem firstPatch_eq_ok_iff {p : UInt64} :
    firstPatch b = .ok p ↔ b.toNat * 100 < UInt64.size ∧ p.toNat = b.toNat * 100 := by
  have wrapped : (b * 100).toNat = b.toNat * 100 % UInt64.size := UInt64.toNat_mul b 100
  unfold firstPatch
  split
  case isTrue fits =>
    rw [Nat.mod_eq_of_lt fits] at wrapped
    constructor
    case mp =>
      rintro ⟨⟩
      exact ⟨fits, wrapped⟩
    case mpr => exact fun h => congrArg Except.ok (UInt64.toNat_inj.mp (wrapped.trans h.right.symm))
  case isFalse large => exact ⟨nofun, fun h => absurd h.left large⟩

-- The comparable form is exact for the expressions that fit, and there is none for the others.
theorem toNumeric_cases (e : FloatingExpr) :
    (e.Fits ∧ ∃ v, e.toNumeric = .ok v ∧ e.IsForm v) ∨ ¬ e.Fits ∧ e.toNumeric = .error .overflow := by
  have size : 0 < UInt64.size := by decide
  cases e
  case band m n b suffix =>
    by_cases fits : b.toNat * 100 < UInt64.size
    case pos =>
      have ⟨p, hp⟩ : ∃ p, firstPatch b = .ok p := ⟨b * 100, if_pos fits⟩
      have exact := (firstPatch_eq_ok_iff.mp hp).right
      refine .inl ⟨fits, .release m (some n) (some p), by rw [toNumeric, hp]; rfl, ?_, rfl⟩
      simp [NumericVersion.numbers, NumericVersion.release, numbers, majorNumber, minorNumber?,
        patchNumber, exact]
    case neg => exact .inr ⟨fits, by rw [toNumeric, firstPatch, if_neg fits]; rfl⟩
  case full m n p labels => exact .inl ⟨p.toNat_lt, _, rfl, rfl, rfl⟩
  all_goals exact .inl ⟨size, _, rfl, rfl, rfl⟩

theorem exists_toNumeric (h : e.Fits) : ∃ v, e.toNumeric = .ok v ∧ e.IsForm v := by
  obtain ⟨_, form⟩ | ⟨large, _⟩ := toNumeric_cases e
  · exact form
  · exact absurd h large

theorem toNumeric_eq_error (h : ¬ e.Fits) : e.toNumeric = .error .overflow := by
  obtain ⟨fits, _⟩ | ⟨_, fault⟩ := toNumeric_cases e
  · exact absurd fits h
  · exact fault

theorem isForm_of_toNumeric (h : e.toNumeric = .ok v) : e.Fits ∧ e.IsForm v := by
  obtain ⟨fits, w, hw, form⟩ | ⟨_, fault⟩ := toNumeric_cases e
  · cases h.symm.trans hw
    exact ⟨fits, form⟩
  · cases h.symm.trans fault

namespace IsForm

theorem sameCore_iff (hv : e.IsForm v) (hw : f.IsForm w) :
    NumericVersion.SameCore v w ↔ e.numbers = f.numbers := by
  rw [← hv.numbers, ← hw.numbers]
  simp only [NumericVersion.numbers, List.cons.injEq, UInt64.toNat_inj, and_true]
  constructor
  case mp => exact fun h => ⟨h.major, h.minor, h.patch⟩
  case mpr => exact fun ⟨hm, hn, hp⟩ => ⟨hm, hn, hp⟩

-- Comparable forms are ranked as the expressions are.
theorem below_iff (hv : e.IsForm v) (hw : f.IsForm w) :
    NumericVersion.Below v w ↔ e.Below f := by
  have same := hv.sameCore_iff hw
  have lower : e.numbers < f.numbers ↔ v.major < w.major ∨
      v.major = w.major ∧ (v.minor.getD 0 < w.minor.getD 0 ∨
        v.minor.getD 0 = w.minor.getD 0 ∧ v.patch.getD 0 < w.patch.getD 0) := by
    rw [← hv.numbers, ← hw.numbers]
    simp [NumericVersion.numbers, List.cons_lt_cons_iff, UInt64.lt_iff_toNat_lt, UInt64.toNat_inj]
  constructor
  case mp =>
    intro h
    cases h with
    | major lt => exact .numbers (lower.mpr (.inl lt))
    | minor major lt => exact .numbers (lower.mpr (.inr ⟨major, .inl lt⟩))
    | patch major minor lt => exact .numbers (lower.mpr (.inr ⟨major, .inr ⟨minor, lt⟩⟩))
    | prerelease core some none =>
      rw [hv.labels] at some
      rw [hw.labels] at none
      exact .prerelease (same.mp core) some none
    | labels core some before =>
      rw [hv.labels] at some
      rw [hv.labels, hw.labels] at before
      exact .labels (same.mp core) some before
  case mpr =>
    intro h
    cases h with
    | numbers lt =>
      obtain lt | ⟨major, lt | ⟨minor, lt⟩⟩ := lower.mp lt
      · exact .major lt
      · exact .minor major lt
      · exact .patch major minor lt
    | prerelease core some none =>
      rw [← hv.labels] at some
      rw [← hw.labels] at none
      exact .prerelease (same.mpr core) some none
    | labels core some before =>
      rw [← hv.labels] at some
      rw [← hv.labels, ← hw.labels] at before
      exact .labels (same.mpr core) some before

end IsForm

-- The comparable form, for the expressions that have one.
def form (e : FloatingExpr) : NumericVersion :=
  e.toNumeric.toOption.getD (.release 0 none none)

theorem toNumeric_eq_form (h : e.Fits) : e.toNumeric = .ok e.form := by
  have ⟨v, hv, _⟩ := exists_toNumeric h
  rw [form, hv]
  rfl

theorem isForm_form (h : e.Fits) : e.IsForm e.form :=
  (isForm_of_toNumeric (toNumeric_eq_form h)).right

end FloatingExpr

namespace FloatingList

variable {l : FloatingList} {best e top : FloatingEntry} {es : List FloatingEntry}

-- The first of the entries that no entry is above.
def IsHighest (l : FloatingList) (top : FloatingEntry) : Prop :=
  ∃ before after, l.entries = before ++ top :: after ∧ (∀ e ∈ before, e.expr.Below top.expr) ∧
    ∀ e ∈ after, ¬ top.expr.Below e.expr

-- Whether the entries can be ranked: a sole one, or several that all have a comparable form.
def Ranks (l : FloatingList) : Prop :=
  l.isMultiLine → ∀ e ∈ l.entries, e.expr.Fits

instance : Decidable l.Ranks :=
  inferInstanceAs (Decidable (_ → _))

theorem higher_eq_ok (hb : best.expr.Fits) (he : e.expr.Fits) :
    higher best e = .ok (Repin.higher (·.expr.form) best e) := by
  rw [higher, FloatingExpr.toNumeric_eq_form he, FloatingExpr.toNumeric_eq_form hb]
  rfl

theorem higher_eq_error (h : ¬ (best.expr.Fits ∧ e.expr.Fits)) : higher best e = .error .overflow := by
  unfold higher
  by_cases he : e.expr.Fits
  case pos =>
    have hb : ¬ best.expr.Fits := fun hb => h ⟨hb, he⟩
    rw [FloatingExpr.toNumeric_eq_form he, FloatingExpr.toNumeric_eq_error hb]
    rfl
  case neg =>
    rw [FloatingExpr.toNumeric_eq_error he]
    rfl

-- The search goes as it does by keys, while all that it meets fit.
theorem foldlM_higher_eq_ok (fits : ∀ e ∈ best :: es, e.expr.Fits) :
    es.foldlM higher best = .ok (es.foldl (Repin.higher (·.expr.form)) best) := by
  induction es generalizing best with
  | nil => rfl
  | cons e es ih =>
    have ⟨hb, fits⟩ := List.forall_mem_cons.mp fits
    have ⟨he, fits⟩ := List.forall_mem_cons.mp fits
    have next : (Repin.higher (·.expr.form) best e).expr.Fits := by
      unfold Repin.higher
      split <;> assumption
    rw [List.foldlM_cons, higher_eq_ok hb he, ok_bind, ih (List.forall_mem_cons.mpr ⟨next, fits⟩)]
    rfl

-- The search compares every entry, so one that does not fit ends it.
theorem foldlM_higher_eq_error (several : es ≠ []) (large : ∃ e ∈ best :: es, ¬ e.expr.Fits) :
    es.foldlM higher best = .error .overflow := by
  induction es generalizing best with
  | nil => contradiction
  | cons e es ih =>
    rw [List.foldlM_cons]
    by_cases fits : best.expr.Fits ∧ e.expr.Fits
    case neg => rw [higher_eq_error fits, error_bind]
    case pos =>
      obtain ⟨f, hf, large⟩ : ∃ f ∈ es, ¬ f.expr.Fits := by
        simpa [fits.left, fits.right] using large
      rw [higher_eq_ok fits.left fits.right, ok_bind]
      exact ih (List.ne_nil_of_mem hf) ⟨f, List.mem_cons_of_mem _ hf, large⟩

theorem isHighest_of_isFirstHighest {before after : List FloatingEntry}
    (entries : l.entries = before ++ top :: after) (fits : ∀ e ∈ l.entries, e.expr.Fits)
    (h : IsFirstHighest (·.expr.form) before top after) : l.IsHighest top := by
  have form : ∀ e ∈ l.entries, e.expr.IsForm e.expr.form := fun e he =>
    FloatingExpr.isForm_form (fits e he)
  rw [entries] at form
  have form_top := form top (by simp)
  refine ⟨before, after, entries, fun e he => ?_, fun e he above => ?_⟩
  case _ =>
    exact ((form e (List.mem_append_left _ he)).below_iff form_top).mp
      (NumericVersion.compare_eq_lt_iff.mp (h.lower e he))
  case _ =>
    have form_e := form e (List.mem_append_right _ (List.mem_cons_of_mem _ he))
    exact h.rest e he (NumericVersion.compare_eq_gt_iff.mpr ((form_top.below_iff form_e).mpr above))

-- The highest entry is found exactly where the entries can be ranked.
theorem highest?_cases (ne : l.entries ≠ []) :
    (l.Ranks ∧ ∃ top, l.highest? = .ok (some top) ∧ l.IsHighest top) ∨
      ¬ l.Ranks ∧ l.highest? = .error .overflow := by
  unfold highest?
  split
  case h_1 nil => exact absurd nil ne
  case h_2 e es entries =>
    by_cases several : es = []
    case pos =>
      subst several
      have sole : ¬ l.isMultiLine := by simp [isMultiLine, entries]
      exact .inl ⟨fun h => absurd h sole, e, rfl, [], [], entries, by simp, by simp⟩
    case neg =>
      have multi : l.isMultiLine := by
        have := List.length_pos_iff.mpr several
        simpa [isMultiLine, entries] using this
      by_cases fits : ∀ f ∈ l.entries, f.expr.Fits
      case pos =>
        obtain ⟨before, after, cut, first⟩ :
            ∃ before after, e :: es = before ++ es.foldl (Repin.higher (·.expr.form)) e :: after ∧
              IsFirstHighest (·.expr.form) before _ after := isFirstHighest_foldl_higher e es
        refine .inl ⟨fun _ => fits, _, ?_, isHighest_of_isFirstHighest (entries.trans cut) fits first⟩
        rw [foldlM_higher_eq_ok (entries ▸ fits)]
        rfl
      case neg =>
        refine .inr ⟨fun ranks => fits (ranks multi), ?_⟩
        simp only [entries, Classical.not_forall, exists_prop] at fits
        rw [foldlM_higher_eq_error several fits]
        rfl

theorem highest?_eq_ok_iff (ne : l.entries ≠ []) : (∃ top, l.highest? = .ok (some top)) ↔ l.Ranks := by
  obtain ⟨ranks, top, highest, _⟩ | ⟨large, fault⟩ := highest?_cases ne
  · exact ⟨fun _ => ranks, fun _ => ⟨top, highest⟩⟩
  · simp [large, fault]

theorem isHighest_of_highest? (h : l.highest? = .ok (some top)) : l.IsHighest top := by
  have ne : l.entries ≠ [] := by
    intro nil
    simp [highest?, nil] at h
  obtain ⟨_, top', highest, isHighest⟩ | ⟨_, fault⟩ := highest?_cases ne
  · cases h.symm.trans highest
    exact isHighest
  · cases h.symm.trans fault

theorem IsHighest.mem (h : l.IsHighest top) : top ∈ l.entries := by
  obtain ⟨before, after, entries, -⟩ := h
  simp [entries]

end FloatingList
end Repin
