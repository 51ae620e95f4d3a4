import Mathlib.Data.List.Basic
import Repin.Proofs.Except
import Repin.Upgrader.Packages
/-!
# Stale packages

Which packages of a project are stale is said by the sites of the project: a reference to a package, and
its version, which lies below the channel. The prefixes that the tool is told to include are the ones of
stale packages, in ascending order.
-/
namespace Repin

section Repetitions

variable {α : Type} [DecidableEq α] {a b : α} {as : List α}

theorem eraseReps_loop (a : α) (as acc : List α) : List.eraseRepsBy.loop (· == ·) a as acc
    = acc.reverse ++ List.eraseRepsBy.loop (· == ·) a as [] := by
  induction as generalizing a acc with
  | nil => simp [List.eraseRepsBy.loop]
  | cons b as ih =>
    cases h : a == b with
    | true => simp only [List.eraseRepsBy.loop, h, ih a acc]
    | false =>
      simp only [List.eraseRepsBy.loop, h]
      rw [ih b (a :: acc), ih b [a]]
      simp

theorem eraseReps_cons_self : (a :: a :: as).eraseReps = (a :: as).eraseReps := by
  simp [List.eraseReps, List.eraseRepsBy, List.eraseRepsBy.loop]

theorem eraseReps_cons_of_ne (h : a ≠ b) : (a :: b :: as).eraseReps = a :: (b :: as).eraseReps := by
  have differ : (a == b) = false := by simpa using h
  simp only [List.eraseReps, List.eraseRepsBy, List.eraseRepsBy.loop, differ]
  rw [eraseReps_loop]
  simp

theorem mem_eraseReps : b ∈ as.eraseReps ↔ b ∈ as := by
  induction as with
  | nil => rfl
  | cons a as ih =>
    cases as with
    | nil => rfl
    | cons c as =>
      by_cases h : a = c
      case pos => simp [h, eraseReps_cons_self, ih]
      case neg => simp [eraseReps_cons_of_ne h, ih]

-- Of sorted texts each stays once, and they ascend.
theorem pairwise_eraseReps {as : List String} (h : as.Pairwise (· ≤ ·)) :
    as.eraseReps.Pairwise (· < ·) := by
  induction as with
  | nil => exact .nil
  | cons a as ih =>
    cases as with
    | nil => exact List.pairwise_singleton _ a
    | cons b as =>
      have ⟨first, sorted⟩ := List.pairwise_cons.mp h
      by_cases same : a = b
      case pos =>
        subst same
        rw [eraseReps_cons_self]
        exact ih sorted
      case neg =>
        rw [eraseReps_cons_of_ne same]
        refine List.pairwise_cons.mpr ⟨fun c hc => ?_, ih sorted⟩
        have hc := mem_eraseReps.mp hc
        have low := first b List.mem_cons_self
        have high : b ≤ c := by
          obtain rfl | hc := List.mem_cons.mp hc
          · exact String.le_refl _
          · exact (List.pairwise_cons.mp sorted).left c hc
        refine String.not_le.mp fun le => same ?_
        exact String.le_antisymm low (String.le_trans high le)

end Repetitions

namespace StaleReference

variable {file text package version : String} {prefixes : List String} {major : UInt64}
variable {site : Site} {sites : List Site} {stale : List StaleReference}

-- The elements that refer to packages.
inductive IsReference : Segment → Prop where
  | project : IsReference (.element "PackageReference")
  | central : IsReference (.element "PackageVersion")

-- Where such an element has its version: in an attribute or a child.
inductive IsVersion : Segment → Prop where
  | attribute : IsVersion (.key "Version")
  | child : IsVersion (.element "Version")

-- The package that an element names: the one it includes, or else the one it updates.
inductive Names (owner : Frame) : String → Prop where
  | includes {package : String} : owner.field? "Include" = some package → Names owner package
  | updates {package : String} :
    owner.field? "Include" = none → owner.field? "Update" = some package → Names owner package

-- The site is the version of a reference to a package.
def Refers (site : Site) (package : String) : Prop :=
  ∃ outer owner leaf, site.path = outer ++ [owner, leaf] ∧ IsVersion leaf.segment ∧
    IsReference owner.segment ∧ Names owner package

-- Some site refers to a package that follows a prefix, in a version below a major one.
def IsStale (prefixes : List String) (major : UInt64) (sites : List Site) (package : String) : Prop :=
  ∃ site ∈ sites, Refers site package ∧ (∃ p ∈ prefixes, p.toList <+: package.toList) ∧
    ∃ v, Semver.parse site.value = .ok v ∧ v.major < major

theorem follows_iff {p : String} : follows package p ↔ p.toList <+: package.toList := by
  rw [follows, List.isPrefixOf_iff_prefix]

theorem names_iff {owner : Frame} :
    Names owner package ↔ (owner.field? "Include").or (owner.field? "Update") = some package := by
  cases h : owner.field? "Include" with
  | none =>
    rw [Option.none_or]
    constructor
    case mp =>
      rintro (included | ⟨_, updated⟩)
      · cases h.symm.trans included
      · exact updated
    case mpr => exact .updates h
  | some id =>
    rw [Option.some_or]
    constructor
    case mp =>
      rintro (included | ⟨none, _⟩)
      · exact h.symm.trans included
      · cases h.symm.trans none
    case mpr =>
      intro same
      exact .includes (h.trans same)

theorem exists_outer {leaf : Segment} {owner : Frame} (hl : site.leaf? = some leaf)
    (ho : site.ancestor? 1 = some owner) :
    ∃ outer frame, site.path = outer ++ [owner, frame] ∧ frame.segment = leaf := by
  obtain ⟨frame, last, same⟩ := Option.map_eq_some_iff.mp hl
  obtain ⟨front, whole⟩ := List.getLast?_eq_some_iff.mp last
  rw [Site.ancestor?, whole, List.reverse_concat, List.getElem?_cons_succ, ← List.head?_eq_getElem?,
    List.head?_reverse] at ho
  obtain ⟨outer, rfl⟩ := List.getLast?_eq_some_iff.mp ho
  exact ⟨outer, frame, by simp [whole], same⟩

theorem isReference_iff {segment : Segment} : IsReference segment ↔
    (segment = .element "PackageReference" || segment = .element "PackageVersion") := by
  simp only [Bool.or_eq_true, decide_eq_true_eq]
  constructor
  case mp =>
    intro h
    cases h <;> simp
  case mpr =>
    rintro (rfl | rfl)
    · exact .project
    · exact .central

theorem packageOf?_eq_some_iff :
    packageOf? site = some (package, version) ↔ Refers site package ∧ site.value = version := by
  constructor
  case mp =>
    intro h
    have of_owner {leaf : Segment} {owner : Frame} (hl : site.leaf? = some leaf)
        (isVersion : IsVersion leaf) (ho : site.ancestor? 1 = some owner)
        (isReference : IsReference owner.segment)
        (named : ((owner.field? "Include").or (owner.field? "Update")).map (·, site.value)
          = some (package, version)) : Refers site package ∧ site.value = version := by
      obtain ⟨outer, frame, path, rfl⟩ := exists_outer hl ho
      obtain ⟨id, names, same⟩ := Option.map_eq_some_iff.mp named
      cases same
      exact ⟨⟨outer, owner, frame, path, isVersion, isReference, names_iff.mpr names⟩, rfl⟩
    unfold packageOf? at h
    split at h
    case h_3 => cases h
    all_goals
      split at h
      case h_2 => cases h
      case h_1 ho =>
        split at h
        case isFalse => cases h
        case isTrue isReference =>
          exact of_owner ‹_› (by constructor) ho (isReference_iff.mpr isReference) h
  case mpr =>
    rintro ⟨⟨outer, owner, leaf, path, isVersion, isReference, names⟩, rfl⟩
    have last : site.leaf? = some leaf.segment := by simp [Site.leaf?, path]
    have above : site.ancestor? 1 = some owner := by simp [Site.ancestor?, path]
    rw [packageOf?, last, above]
    generalize leaf.segment = segment at isVersion
    cases isVersion <;> simp only [if_pos (isReference_iff.mp isReference), names_iff.mp names] <;> rfl

theorem ofSite?_eq_some_iff {s : StaleReference} : ofSite? file prefixes major site = some s ↔
    s = ⟨file, s.package, site.value⟩ ∧ Refers site s.package ∧
      (∃ p ∈ prefixes, p.toList <+: s.package.toList) ∧
      ∃ v, Semver.parse site.value = .ok v ∧ v.major < major := by
  simp only [← follows_iff, ← List.any_eq_true]
  constructor
  case mp =>
    intro h
    unfold ofSite? at h
    split at h
    case h_1 => cases h
    case h_2 package version hp =>
      obtain ⟨refers, rfl⟩ := packageOf?_eq_some_iff.mp hp
      split at h
      case isFalse => cases h
      case isTrue followed =>
        split at h
        case h_2 => cases h
        case h_1 v hv =>
          split at h
          case isFalse => cases h
          case isTrue below =>
            cases h
            exact ⟨rfl, refers, followed, v, hv, below⟩
  case mpr =>
    rintro ⟨same, refers, followed, v, hv, below⟩
    rw [ofSite?, packageOf?_eq_some_iff.mpr ⟨refers, rfl⟩]
    dsimp only
    rw [if_pos followed, hv]
    dsimp only
    rw [if_pos below, ← same]

-- The packages of the stale references in a project are its stale packages.
theorem exists_mem_filterMap_iff :
    (∃ s ∈ sites.filterMap (ofSite? file prefixes major), s.package = package) ↔
      IsStale prefixes major sites package := by
  simp only [List.mem_filterMap, ofSite?_eq_some_iff]
  constructor
  case mp =>
    rintro ⟨s, ⟨site, hm, _, stale⟩, rfl⟩
    exact ⟨site, hm, stale⟩
  case mpr =>
    rintro ⟨site, hm, stale⟩
    exact ⟨⟨file, package, site.value⟩, ⟨site, hm, rfl, stale⟩, rfl⟩

-- The used prefixes are those that some stale package follows, in ascending order.
theorem pairwise_usedPrefixes (prefixes : List String) (stale : List StaleReference) :
    (usedPrefixes prefixes stale).Pairwise (· < ·) := by
  apply pairwise_eraseReps
  refine (List.pairwise_mergeSort ?_ ?_ _).imp of_decide_eq_true
  case refine_1 =>
    intro a b c hab hbc
    exact decide_eq_true (String.le_trans (of_decide_eq_true hab) (of_decide_eq_true hbc))
  case refine_2 =>
    intro a b
    simpa using String.le_total a b

theorem mem_usedPrefixes_iff {p : String} : p ∈ usedPrefixes prefixes stale ↔
    p ∈ prefixes ∧ ∃ s ∈ stale, p.toList <+: s.package.toList := by
  simp [usedPrefixes, mem_eraseReps, List.mem_mergeSort, follows_iff]

end StaleReference
end Repin
