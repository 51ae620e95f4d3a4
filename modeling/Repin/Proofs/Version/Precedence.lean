import Repin.Proofs.Version.Numeric
/-!
# Precedence of semantic versions

The precedence of SemVer 2.0.0 is stated without the comparison: the first number that differs decides,
a missing one being zero; at equal numbers a version with labels is below the one without, and else the
first label that differs decides. The comparison is a total preorder, and ranks versions just so.

Main statement: `NumericVersion.compare_isPrecedence`.
-/
namespace Repin

theorem Text.compare_eq_lt_iff {s t : String} : compare s t = .lt ↔ s < t :=
  compareOfLessAndEq_eq_lt

namespace PreLabel

variable {l m : PreLabel} {as bs : List PreLabel}

-- Numbers by their values, texts by their characters, and all numbers below all texts.
inductive Before : PreLabel → PreLabel → Prop where
  | numbers {m n : UInt64} : m < n → Before (numeric m) (numeric n)
  | numberText {n : UInt64} {text : String} {isAlpha : IsAlphaLabel text} :
    Before (numeric n) (alpha text isAlpha)
  | texts {s t : String} {hs : IsAlphaLabel s} {ht : IsAlphaLabel t} :
    s < t → Before (alpha s hs) (alpha t ht)

-- Behind what two lists have in common, a lower label comes first or the one list ends.
inductive ListBefore : List PreLabel → List PreLabel → Prop where
  | difference {l m : PreLabel} {as bs : List PreLabel} (common : List PreLabel) :
    l.Before m → ListBefore (common ++ l :: as) (common ++ m :: bs)
  | extension {m : PreLabel} {bs : List PreLabel} (common : List PreLabel) :
    ListBefore common (common ++ m :: bs)

instance : Std.LawfulEqOrd PreLabel where
  eq_of_compare {l m} h := by
    cases l <;> cases m
    case numeric.numeric => exact congrArg numeric (Std.LawfulEqOrd.eq_of_compare h)
    case alpha.alpha =>
      have same := Std.LawfulEqOrd.eq_of_compare (α := String) h
      subst same
      rfl
    all_goals cases h

theorem compare_eq_lt_iff : compare l m = .lt ↔ l.Before m := by
  constructor
  case mp =>
    intro h
    cases l <;> cases m
    case numeric.numeric => exact .numbers (Std.compare_eq_lt.mp h)
    case numeric.alpha => exact .numberText
    case alpha.numeric => cases h
    case alpha.alpha => exact .texts (Text.compare_eq_lt_iff.mp h)
  case mpr =>
    intro h
    cases h with
    | numbers lt => exact (Std.compare_eq_lt (α := UInt64)).mpr lt
    | numberText => rfl
    | texts lt => exact Text.compare_eq_lt_iff.mpr lt

theorem not_listBefore_nil : ¬ ListBefore as [] := by
  intro h
  generalize hb : [] = bs at h
  cases h <;> simp at hb

theorem listBefore_nil_cons : ListBefore [] (m :: bs) :=
  .extension []

theorem ListBefore.cons (h : ListBefore as bs) : ListBefore (l :: as) (l :: bs) := by
  cases h with
  | difference common before => exact .difference (l :: common) before
  | extension => exact .extension (l :: as)

theorem listBefore_cons_iff :
    ListBefore (l :: as) (m :: bs) ↔ l.Before m ∨ l = m ∧ ListBefore as bs := by
  constructor
  case mp =>
    intro h
    generalize ha : l :: as = xs at h
    generalize hb : m :: bs = ys at h
    cases h with
    | difference common before =>
      cases common with
      | nil =>
        obtain ⟨rfl, rfl⟩ := List.cons.inj ha
        obtain ⟨rfl, rfl⟩ := List.cons.inj hb
        exact .inl before
      | cons c common =>
        obtain ⟨rfl, rfl⟩ := List.cons.inj ha
        obtain ⟨rfl, rfl⟩ := List.cons.inj hb
        exact .inr ⟨rfl, .difference common before⟩
    | extension =>
      subst ha
      obtain ⟨rfl, rfl⟩ := List.cons.inj hb
      exact .inr ⟨rfl, .extension as⟩
  case mpr =>
    rintro (before | ⟨rfl, rest⟩)
    case inl => exact .difference [] before
    case inr => exact rest.cons

theorem compareLists_eq_lt_iff : compareLists as bs = .lt ↔ ListBefore as bs := by
  induction as generalizing bs with
  | nil =>
    cases bs with
    | nil => simp [compareLists, not_listBefore_nil]
    | cons m bs => simp [compareLists, listBefore_nil_cons]
  | cons l as ih =>
    cases bs with
    | nil => simp [compareLists, not_listBefore_nil]
    | cons m bs =>
      rw [compareLists, Ordering.then_eq_lt, compare_eq_lt_iff, Std.LawfulEqOrd.compare_eq_iff_eq, ih,
        listBefore_cons_iff]

theorem compareLists_eq_eq_iff : compareLists as bs = .eq ↔ as = bs := by
  rw [compareLists_eq, Std.LawfulEqOrd.compare_eq_iff_eq]

end PreLabel

namespace NumericVersion

variable {v w : NumericVersion} {as bs : List PreLabel}

-- Equal numbers, where a missing one is zero.
structure SameCore (v w : NumericVersion) : Prop where
  major : v.major = w.major
  minor : v.minor.getD 0 = w.minor.getD 0
  patch : v.patch.getD 0 = w.patch.getD 0

structure SamePrecedence (v w : NumericVersion) : Prop extends SameCore v w where
  prerelease : v.prerelease = w.prerelease

-- The rules of precedence, the first that tells two versions apart.
inductive Below (v w : NumericVersion) : Prop where
  | major : v.major < w.major → Below v w
  | minor : v.major = w.major → v.minor.getD 0 < w.minor.getD 0 → Below v w
  | patch : v.major = w.major → v.minor.getD 0 = w.minor.getD 0 →
    v.patch.getD 0 < w.patch.getD 0 → Below v w
  | prerelease : SameCore v w → v.prerelease ≠ [] → w.prerelease = [] → Below v w
  | labels : SameCore v w → v.prerelease ≠ [] →
    PreLabel.ListBefore v.prerelease w.prerelease → Below v w

theorem comparePrerelease_eq_eq_iff : comparePrerelease as bs = .eq ↔ as = bs := by
  cases as <;> cases bs
  case cons.cons => exact PreLabel.compareLists_eq_eq_iff
  all_goals simp [comparePrerelease]

theorem comparePrerelease_eq_lt_iff :
    comparePrerelease as bs = .lt ↔ as ≠ [] ∧ (bs = [] ∨ PreLabel.ListBefore as bs) := by
  cases as <;> cases bs
  case cons.cons => simpa [comparePrerelease] using PreLabel.compareLists_eq_lt_iff
  all_goals simp [comparePrerelease]

theorem compare_eq_eq_iff : compare v w = .eq ↔ SamePrecedence v w := by
  change Ordering.then _ _ = _ ↔ _
  simp only [Ordering.then_eq_eq, Std.LawfulEqOrd.compare_eq_iff_eq, comparePrerelease_eq_eq_iff]
  constructor
  case mp => exact fun ⟨major, minor, patch, prerelease⟩ => ⟨⟨major, minor, patch⟩, prerelease⟩
  case mpr => exact fun h => ⟨h.major, h.minor, h.patch, h.prerelease⟩

theorem compare_eq_lt_iff : compare v w = .lt ↔ Below v w := by
  change Ordering.then _ _ = _ ↔ _
  simp only [Ordering.then_eq_lt, Std.LawfulEqOrd.compare_eq_iff_eq, Std.compare_eq_lt,
    comparePrerelease_eq_lt_iff]
  constructor
  case mp =>
    rintro (lt | ⟨major, lt | ⟨minor, lt | ⟨patch, some, none | before⟩⟩⟩)
    · exact .major lt
    · exact .minor major lt
    · exact .patch major minor lt
    · exact .prerelease ⟨major, minor, patch⟩ some none
    · exact .labels ⟨major, minor, patch⟩ some before
  case mpr =>
    intro h
    cases h with
    | major lt => exact .inl lt
    | minor major lt => exact .inr ⟨major, .inl lt⟩
    | patch major minor lt => exact .inr ⟨major, .inr ⟨minor, .inl lt⟩⟩
    | prerelease core some none =>
      exact .inr ⟨core.major, .inr ⟨core.minor, .inr ⟨core.patch, some, .inl none⟩⟩⟩
    | labels core some before =>
      exact .inr ⟨core.major, .inr ⟨core.minor, .inr ⟨core.patch, some, .inr before⟩⟩⟩

theorem compare_eq_gt_iff : compare v w = .gt ↔ Below w v := by
  rw [Std.OrientedCmp.gt_iff_lt, compare_eq_lt_iff]

-- The comparison is a total preorder, and decides precedence.
theorem compare_isPrecedence (u v w : NumericVersion) :
    compare v v = .eq ∧
    compare w v = (compare v w).swap ∧
    ((compare u v).isLE → (compare v w).isLE → (compare u w).isLE) ∧
    (compare v w = .eq ↔ SamePrecedence v w) ∧
    (compare v w = .lt ↔ Below v w) ∧
    (compare v w = .gt ↔ Below w v) := by
  refine ⟨?reflexive, ?reverse, ?transitive, compare_eq_eq_iff, compare_eq_lt_iff, compare_eq_gt_iff⟩
  case reflexive => exact Std.ReflCmp.compare_self
  case reverse => exact Std.OrientedCmp.eq_swap
  case transitive => exact Std.TransCmp.isLE_trans

-- The second preview, the tenth and the release: numbers are compared by value, and the release is
-- above both.
theorem compare_isPrecedence_previews :
    let preview (n : UInt64) : NumericVersion :=
      ⟨9, some 0, some 100, [.alpha "preview" (by decide), .numeric n]⟩
    (compare (preview 2) (preview 10)).isLE ∧
    (compare (preview 10) (.release 9 none (some 100))).isLE ∧
    (compare (preview 2) (.release 9 none (some 100))).isLE ∧
    Below (preview 10) (.release 9 none (some 100)) := by
  have ⟨_, _, transitive, _, below, _⟩ := compare_isPrecedence
    ⟨9, some 0, some 100, [.alpha "preview" (by decide), .numeric 2]⟩
    ⟨9, some 0, some 100, [.alpha "preview" (by decide), .numeric 10]⟩
    (.release 9 none (some 100))
  exact ⟨by decide, by decide, transitive (by decide) (by decide), below.mp (by decide)⟩

end NumericVersion

end Repin
