import Repin.Locate.Site
import Repin.Proofs.Locate.Tie
/-!
# Predicates asked together

Of several predicates the most specific selection is taken. A selection is compared with the best one so
far, so a tie that a more specific selection stands in front of is never seen, and whether two predicates
tie is told in every order only where the most specific ones do.

Main statement: `Selector.anyOf_reportsTies_iff`.
-/
namespace Repin.Selector

variable {site : Site} {selectors order : List Selector} {found : List Selection}
variable {best top : Selection} {answer : Except Fault (Option Selection)}

-- The selections of a site, in the order of the predicates.
def selections (site : Site) (selectors : List Selector) : List Selection :=
  selectors.filterMap (· site)

theorem selections_of_perm (perm : order.Perm selectors) :
    (selections site order).Perm (selections site selectors) :=
  perm.filterMap _

theorem anyOfFrom_eq_foldlM (start : Option Selection) :
    anyOfFrom site start selectors = (selections site selectors).foldlM (prefer site) start := by
  induction selectors generalizing start with
  | nil => rfl
  | cons selector selectors ih =>
    cases hs : selector site with
    | none => simp only [anyOfFrom, selections, List.filterMap_cons, hs, ih]
    | some selection =>
      simp only [anyOfFrom, selections, List.filterMap_cons, hs, List.foldlM_cons]
      exact bind_congr ih

theorem contest_prefer (site : Site) :
    Contest (·.specificity) (fun _ => True) some (prefer site) where
  tie _ _ same := ⟨_, if_pos same.symm⟩
  greater _ _ lt := by
    rw [prefer, if_neg (Nat.ne_of_lt lt), if_pos lt]
  less _ _ lt := by
    rw [prefer, if_neg (Nat.ne_of_gt lt), if_neg (Nat.lt_asymm lt)]

-- The ways in which predicates answer, by what they select.
inductive Answers (site : Site) (found : List Selection) : Except Fault (Option Selection) → Prop where
  | nothing : found = [] → Answers site found (.ok none)
  | top {top : Selection} : ¬ Ties (·.specificity) found → IsTop (·.specificity) found top →
    Answers site found (.ok (some top))
  | tie : Ties (·.specificity) found → Answers site found (.error (.tiedPredicates site.span))

-- A search has one fault only.
theorem fault_of_foldlM {start : Option Selection} {fault : Fault}
    (h : found.foldlM (prefer site) start = .error fault) : fault = .tiedPredicates site.span := by
  induction found generalizing start with
  | nil => cases h
  | cons selection found ih =>
    rw [List.foldlM_cons, bind_eq_error] at h
    obtain h | ⟨next, _, h⟩ := h
    case inr => exact ih h
    case inl =>
      unfold prefer at h
      split at h
      case h_1 => cases h
      case h_2 =>
        split at h
        case isTrue =>
          cases h
          rfl
        case isFalse => split at h <;> cases h

theorem answers_anyOf (selectors : List Selector) (site : Site) :
    Answers site (selections site selectors) (anyOf selectors site) := by
  rw [anyOf, anyOfFrom_eq_foldlM]
  cases hf : selections site selectors with
  | nil => exact .nothing rfl
  | cons first found =>
    have start : (first :: found).foldlM (prefer site) none
        = found.foldlM (prefer site) (some first) := rfl
    rw [start]
    obtain ⟨ties, fault, run⟩ | ⟨none, top, isTop, run⟩ :=
      (contest_prefer site).foldlM_cases trivial fun _ (_ : _ ∈ found) => trivial
    case inl =>
      rw [run, fault_of_foldlM run]
      exact .tie ties
    case inr =>
      rw [run]
      exact .top none isTop

-- Two predicates that select a site with one specificity.
def Tied (site : Site) (selectors : List Selector) : Prop :=
  ∃ p q s t, [p, q].Sublist selectors ∧ p site = some s ∧ q site = some t ∧
    s.specificity = t.specificity

theorem tied_iff : Tied site selectors ↔ ¬ Distinct (·.specificity) (selections site selectors) := by
  rw [Distinct, selections, List.pairwise_filterMap, List.pairwise_iff_forall_sublist, Tied]
  push Not
  constructor
  case mp =>
    rintro ⟨p, q, s, t, sub, hs, ht, same⟩
    exact ⟨p, q, sub, s, hs, t, ht, same⟩
  case mpr =>
    rintro ⟨p, q, sub, s, hs, t, ht, same⟩
    exact ⟨p, q, s, t, sub, hs, ht, same⟩

namespace Answers

theorem error_iff (h : Answers site found answer) :
    (∃ fault, answer = .error fault) ↔ Ties (·.specificity) found := by
  cases h with
  | nothing none =>
    subst none
    simpa using Distinct.not_ties (List.Pairwise.nil)
  | top none => simpa using none
  | tie ties => simpa using ties

theorem eq_of_topTied (h : Answers site found answer) (tied : TopTied (·.specificity) found) :
    answer = .error (.tiedPredicates site.span) := by
  cases h with
  | nothing none =>
    obtain ⟨x, y, sub, _⟩ := tied
    simpa [none] using sub.length_le
  | top _ isTop => exact absurd tied isTop.not_topTied
  | tie => rfl

theorem unique {found' : List Selection} {answer' : Except Fault (Option Selection)}
    (h : Answers site found answer) (h' : Answers site found' answer') (perm : found'.Perm found)
    (distinct : Distinct (·.specificity) found) : answer' = answer := by
  have distinct' := distinct.of_perm perm.symm
  cases h with
  | tie ties => exact absurd ties distinct.not_ties
  | nothing none =>
    subst none
    cases h' with
    | nothing => rfl
    | top _ isTop => exact absurd (perm.mem_iff.mp isTop.mem) List.not_mem_nil
    | tie ties => exact absurd ties distinct'.not_ties
  | top _ isTop =>
    cases h' with
    | nothing none =>
      subst none
      exact absurd (perm.mem_iff.mpr isTop.mem) List.not_mem_nil
    | top _ isTop' => rw [isTop.unique isTop' perm]
    | tie ties => exact absurd ties distinct'.not_ties

end Answers

-- What is asked of predicates: a fault tells that two of them tie, without one the most specific selection
-- is taken, and their order does not matter.
structure ReportsTies (site : Site) (selectors : List Selector) : Prop where
  faults : (∃ fault, anyOf selectors site = .error fault) ↔ Tied site selectors
  takes : ¬ Tied site selectors →
    selections site selectors = [] ∧ anyOf selectors site = .ok none ∨
      ∃ top, IsTop (·.specificity) (selections site selectors) top ∧
        anyOf selectors site = .ok (some top)
  orders : ∀ order, order.Perm selectors → anyOf order site = anyOf selectors site

theorem reportsTies_of_not_tied (h : ¬ Tied site selectors) : ReportsTies site selectors := by
  have distinct := not_not.mp (mt tied_iff.mpr h)
  have answers := answers_anyOf selectors site
  refine ⟨?_, fun _ => ?_, fun order perm => ?_⟩
  case _ =>
    rw [answers.error_iff]
    exact ⟨fun ties => absurd ties distinct.not_ties, fun tied => absurd tied h⟩
  case _ =>
    generalize anyOf selectors site = answer at answers
    cases answers with
    | nothing none => exact .inl ⟨none, rfl⟩
    | top _ isTop => exact .inr ⟨_, isTop, rfl⟩
    | tie ties => exact absurd ties distinct.not_ties
  case _ => exact answers.unique (answers_anyOf order site) (selections_of_perm perm) distinct

theorem reportsTies_of_topTied (h : TopTied (·.specificity) (selections site selectors)) :
    ReportsTies site selectors := by
  have answers := answers_anyOf selectors site
  have fault := answers.eq_of_topTied h
  have ties := answers.error_iff.mp ⟨_, fault⟩
  have tied : Tied site selectors := tied_iff.mpr fun distinct => distinct.not_ties ties
  refine ⟨⟨fun _ => tied, fun _ => ⟨_, fault⟩⟩, fun none => absurd tied none, fun order perm => ?_⟩
  rw [fault]
  exact (answers_anyOf order site).eq_of_topTied (h.of_perm (selections_of_perm perm).symm)

-- In front of all others the most specific selection is taken, whatever ties behind it.
theorem exists_order_of_isTop (h : IsTop (·.specificity) (selections site selectors) top) :
    ∃ order, order.Perm selectors ∧ anyOf order site = .ok (some top) := by
  obtain ⟨before, after, heq, lt⟩ := h
  obtain ⟨front, rest, rfl, rfl, hrest⟩ := List.filterMap_eq_append_iff.mp heq
  obtain ⟨skipped, selector, back, rfl, none, selects, rfl⟩ := List.filterMap_eq_cons_iff.mp hrest
  refine ⟨selector :: (front ++ (skipped ++ back)), ?_, ?_⟩
  case _ =>
    rw [← List.append_assoc, ← List.append_assoc]
    exact List.perm_middle.symm
  case _ =>
    have found : selections site (selector :: (front ++ (skipped ++ back)))
        = top :: (front.filterMap (· site) ++ back.filterMap (· site)) := by
      simp [selections, selects, List.filterMap_eq_nil_iff.mpr none]
    have answers := answers_anyOf (selector :: (front ++ (skipped ++ back))) site
    rw [found] at answers
    generalize anyOf (selector :: (front ++ (skipped ++ back))) site = answer at answers
    have isTop : IsTop (·.specificity)
        (top :: (front.filterMap (· site) ++ back.filterMap (· site))) top := ⟨[], _, rfl, lt⟩
    cases answers with
    | nothing none => cases none
    | top _ isTop' => rw [isTop.unique isTop' (.refl _)]
    | tie ties =>
      obtain ⟨x, y, sub, _, le⟩ := ties.exists_sublist
      have behind : y ∈ front.filterMap (· site) ++ back.filterMap (· site) :=
        sub.tail.subset List.mem_cons_self
      exact absurd le (Nat.not_le.mpr (lt y behind))

-- What several predicates answer, and when their ties are told in every order: where there are none, or
-- where the most specific selections tie.
theorem anyOf_reportsTies_iff (selectors : List Selector) (site : Site) :
    Answers site (selections site selectors) (anyOf selectors site) ∧
      (ReportsTies site selectors ↔
        ¬ Tied site selectors ∨ TopTied (·.specificity) (selections site selectors)) := by
  refine ⟨answers_anyOf selectors site, fun reports => ?_, fun h => ?_⟩
  case refine_1 =>
    refine Classical.or_iff_not_imp_left.mpr fun tied => ?_
    replace tied := not_not.mp tied
    have ne : selections site selectors ≠ [] := by
      intro none
      rw [tied_iff, none] at tied
      exact tied .nil
    obtain ⟨top, isTop⟩ | topTied := isTop_or_topTied ne
    case inr => exact topTied
    case inl =>
      obtain ⟨order, perm, taken⟩ := exists_order_of_isTop isTop
      obtain ⟨fault, refused⟩ := reports.faults.mpr tied
      rw [reports.orders order perm, refused] at taken
      cases taken
  case refine_2 =>
    obtain none | topTied := h
    · exact reportsTies_of_not_tied none
    · exact reportsTies_of_topTied topTied

-- Two predicates tie behind a more specific one: the same predicates give its selection in one order, and
-- a fault in another one.
theorem not_reportsTies_behind :
    let select (specificity : Nat) : Selector := fun _ => some { kind := .floatingChannel, specificity }
    let site : Site := ⟨[], "8.0.100", .ofLength 12 7, false, true⟩
    anyOf [select 3, select 1, select 1] site = .ok (select 3 site) ∧
    anyOf [select 1, select 1, select 3] site = .error (.tiedPredicates (.ofLength 12 7)) ∧
    Tied site [select 3, select 1, select 1] ∧
    ¬ ReportsTies site [select 3, select 1, select 1] := by
  intro select site
  have taken : anyOf [select 3, select 1, select 1] site = .ok (select 3 site) := rfl
  have refused : anyOf [select 1, select 1, select 3] site
      = .error (.tiedPredicates (.ofLength 12 7)) := rfl
  refine ⟨taken, refused, ?_, fun reports => ?_⟩
  case _ => exact ⟨_, _, _, _, List.sublist_cons_self _ _, rfl, rfl, rfl⟩
  case _ =>
    have same := reports.orders [select 1, select 1, select 3] (@List.perm_append_comm _ [_, _] [_])
    rw [taken, refused] at same
    cases same

end Repin.Selector
