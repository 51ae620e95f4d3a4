import Mathlib.Logic.Relation
import Repin.Proofs.Locate.Overlap
/-!
# Losers and survivors

A candidate that is dropped lost an overlap. The one it lost to may be dropped in its turn, so what is
left at the end of such a chain is a survivor that beats every member of the chain, but need not overlap
the first one.

Main statement: `Candidate.losesTo_survivor_iff`.
-/
namespace Repin

namespace Candidate

variable {all candidates front kept kept' next rest : List Candidate} {c d e heir last : Candidate}

-- What decides an overlap: the specificity, and between equally specific candidates the inner one.
inductive Beats (c d : Candidate) : Prop where
  | specific : d.specificity < c.specificity → Beats c d
  | inner : c.specificity = d.specificity → d.span.contains c.span → c.span ≠ d.span → Beats c d

structure LosesTo (d c : Candidate) : Prop where
  overlaps : d.span.overlaps c.span
  beaten : c.Beats d

theorem Beats.trans (hc : c.Beats d) (hd : d.Beats e) : c.Beats e := by
  cases hc with
  | specific lt =>
    cases hd with
    | specific lt' => exact .specific (Nat.lt_trans lt' lt)
    | inner eq => exact .specific (eq ▸ lt)
  | inner eq contains ne =>
    cases hd with
    | specific lt => exact .specific (eq ▸ lt)
    | inner eq' contains' ne' =>
      refine .inner (eq.trans eq') (Span.contains_trans contains' contains) fun same => ?_
      exact ne' (Span.eq_of_contains (same ▸ contains) contains')

theorem beats_of_replaces (h : c.replaces last = .ok true) : c.Beats last := by
  unfold replaces at h
  split at h
  case isTrue =>
    exact .specific (by simpa using Except.ok.inj h)
  case isFalse same =>
    split at h
    case isTrue => cases h
    case isFalse ne =>
      split at h
      case isTrue contains => exact .inner (by simpa using same) contains (Ne.symm ne)
      case isFalse => split at h <;> cases h

theorem beats_of_not_replaces (h : c.replaces last = .ok false) : last.Beats c := by
  unfold replaces at h
  split at h
  case isTrue ne =>
    have le : c.specificity ≤ last.specificity := by simpa using Except.ok.inj h
    exact .specific (Nat.lt_of_le_of_ne le ne)
  case isFalse same =>
    split at h
    case isTrue => cases h
    case isFalse ne =>
      split at h
      case isTrue => cases h
      case isFalse =>
        split at h
        case isTrue contains => exact .inner (by simpa using Eq.symm (not_not.mp same)) contains ne
        case isFalse => cases h

-- An overlap that is lost to a member of a list.
def LosesWithin (candidates : List Candidate) (d c : Candidate) : Prop :=
  c ∈ candidates ∧ d.LosesTo c

theorem beats_of_chain (h : Relation.TransGen (LosesWithin candidates) d c) : c.Beats d := by
  induction h with
  | single h => exact h.right.beaten
  | tail _ h ih => exact h.right.beaten.trans ih

-- Below the last survivor nothing changes any more, and its own place is passed on along a chain of
-- lost overlaps.
theorem exists_heir (h : candidates.foldlM keep (last :: rest) = .ok kept)
    (within : ∀ c ∈ candidates, c ∈ all) : ∃ front heir, kept = front ++ heir :: rest ∧
      Relation.ReflTransGen (LosesWithin all) last heir ∧ (heir = last ∨ heir ∈ candidates) := by
  induction candidates generalizing last rest with
  | nil =>
    cases h
    exact ⟨[], last, rfl, .refl, .inl rfl⟩
  | cons c candidates ih =>
    rw [List.foldlM_cons] at h
    obtain ⟨next, hn, h⟩ := bind_eq_ok.mp h
    have ⟨first, within⟩ := List.forall_mem_cons.mp within
    cases keeps_of_keep hn with
    | apart =>
      obtain ⟨front, heir, heq, -, -⟩ := ih h within
      exact ⟨front ++ [heir], last, by simp [heq], .refl, .inl rfl⟩
    | replaces overlaps wins =>
      obtain ⟨front, heir, heq, chain, place⟩ := ih h within
      have loses : last.LosesTo c := ⟨overlaps, beats_of_replaces wins⟩
      refine ⟨front, heir, heq, .head ⟨first, loses⟩ chain, .inr ?_⟩
      exact List.mem_cons.mpr place
    | drops =>
      obtain ⟨front, heir, heq, chain, place⟩ := ih h within
      exact ⟨front, heir, heq, chain, place.imp_right (List.mem_cons_of_mem c)⟩

-- A candidate that was dropped: a survivor took its place, and the survivors before that one end where
-- the candidate starts.
structure FallsTo (all : List Candidate) (d heir : Candidate) (rest : List Candidate) : Prop where
  chain : Relation.TransGen (LosesWithin all) d heir
  before : ∀ e ∈ rest, e.span.stop ≤ d.span.start
  place : d.span.overlaps heir.span ∨ (compare d.span heir.span).isLE

-- One step drops one candidate at most.
theorem Keeps.exists_lost (step : Keeps c kept next) (h : candidates.foldlM keep next = .ok kept')
    (stacked : Stacked kept) (first : ∀ b ∈ candidates, (compare c.span b.span).isLE)
    (before : ∀ d ∈ kept, ∀ b ∈ c :: candidates, (compare d.span b.span).isLE)
    (within : ∀ d ∈ kept ++ c :: candidates, d ∈ all) :
    ∃ lost, (c :: kept).Perm (next ++ lost) ∧ ∀ d ∈ lost, ∃ front heir rest,
      kept' = front ++ heir :: rest ∧ FallsTo all d heir rest := by
  have ⟨old, new⟩ := List.forall_mem_append.mp within
  have ⟨own, further⟩ := List.forall_mem_cons.mp new
  cases step with
  | first => exact ⟨[], by simp, by simp⟩
  | apart => exact ⟨[], by simp, by simp⟩
  | @replaces last kept overlaps wins =>
    obtain ⟨front, heir, heq, chain, place⟩ := exists_heir h further
    have ⟨others, _⟩ := List.pairwise_cons.mp stacked
    have loses : last.LosesTo c := ⟨overlaps, beats_of_replaces wins⟩
    have order : (compare last.span heir.span).isLE :=
      before last List.mem_cons_self heir (List.mem_cons.mpr place)
    refine ⟨[last], ?perm, List.forall_mem_singleton.mpr ⟨front, heir, kept, heq, ?falls⟩⟩
    case perm =>
      refine .cons c ?_
      exact (List.perm_append_singleton last kept).symm
    case falls =>
      exact {
        chain := .head' ⟨own, loses⟩ chain
        before := others
        place := .inr order
      }
  | @drops last kept overlaps loses =>
    obtain ⟨front, heir, heq, chain, place⟩ := exists_heir h further
    have ⟨others, _⟩ := List.pairwise_cons.mp stacked
    have overlaps : c.span.overlaps last.span := by rwa [Span.overlaps_comm]
    have loses : c.LosesTo last := ⟨overlaps, beats_of_not_replaces loses⟩
    have start := Span.start_le_start (before last List.mem_cons_self c List.mem_cons_self)
    refine ⟨[c], ?perm, List.forall_mem_singleton.mpr ⟨front, heir, kept, heq, ?falls⟩⟩
    case perm => exact (List.perm_append_singleton c (last :: kept)).symm
    case falls =>
      exact {
        chain := .head' ⟨old last List.mem_cons_self, loses⟩ chain
        before := fun e he => Nat.le_trans (others e he) start
        place := by
          obtain rfl | later := place
          · exact .inl overlaps
          · exact .inr (first heir later)
      }

theorem foldlM_keep_lost (h : candidates.foldlM keep kept = .ok kept') (stacked : Stacked kept)
    (sorted : candidates.Pairwise fun a b => (compare a.span b.span).isLE)
    (before : ∀ d ∈ kept, ∀ c ∈ candidates, (compare d.span c.span).isLE)
    (within : ∀ d ∈ kept ++ candidates, d ∈ all) :
    ∃ lost, (kept ++ candidates).Perm (kept' ++ lost) ∧ ∀ d ∈ lost, ∃ front heir rest,
      kept' = front ++ heir :: rest ∧ FallsTo all d heir rest := by
  induction candidates generalizing kept with
  | nil =>
    cases h
    exact ⟨[], by simp, by simp⟩
  | cons c candidates ih =>
    rw [List.foldlM_cons] at h
    obtain ⟨next, hn, h⟩ := bind_eq_ok.mp h
    have step := keeps_of_keep hn
    have ⟨first, sorted⟩ := List.pairwise_cons.mp sorted
    obtain ⟨one, perm, falls⟩ := step.exists_lost h stacked first before within
    have old : ∀ d ∈ next, d ∈ c :: kept := fun d hd => perm.mem_iff.mpr (List.mem_append_left _ hd)
    have further : ∀ d ∈ next, ∀ b ∈ candidates, (compare d.span b.span).isLE := by
      intro d hd b hb
      obtain rfl | hd := List.mem_cons.mp (old d hd)
      · exact first b hb
      · exact before d hd b (List.mem_cons_of_mem _ hb)
    have whole : (kept ++ c :: candidates).Perm (next ++ candidates ++ one) := calc
      (kept ++ c :: candidates).Perm (c :: kept ++ candidates) := List.perm_middle
      _ |>.Perm (next ++ one ++ candidates) := perm.append_right candidates
      _ |>.Perm (next ++ candidates ++ one) := by
        rw [List.append_assoc, List.append_assoc]
        exact List.perm_append_comm.append_left next
    have within : ∀ d ∈ next ++ candidates, d ∈ all :=
      fun d hd => within d (whole.mem_iff.mpr (List.mem_append_left _ hd))
    obtain ⟨lost, perm', falls'⟩ := ih h
      (step.stacked stacked fun d hd => before d hd c List.mem_cons_self) sorted further within
    refine ⟨lost ++ one, ?_, List.forall_mem_append.mpr ⟨falls', falls⟩⟩
    rw [← List.append_assoc]
    exact whole.trans (perm'.append_right one)

-- No other survivor overlaps a candidate that does not overlap the one that took its place.
theorem FallsTo.overlaps (h : FallsTo all d heir rest) (stacked : Stacked (front ++ heir :: rest))
    (he : e ∈ front ++ heir :: rest) (overlaps : d.span.overlaps e.span) :
    d.span.overlaps heir.span := by
  obtain meets | order := h.place
  case inl => exact meets
  case inr =>
    have ⟨_, _, behind⟩ := List.pairwise_append.mp stacked
    have := d.span.start_le_stop
    have := heir.span.start_le_stop
    rw [Span.isLE_compare_iff] at order
    simp only [Span.overlaps, Bool.and_eq_true, decide_eq_true_eq] at overlaps ⊢
    obtain he | he := List.mem_append.mp he
    · have := behind e he heir List.mem_cons_self
      omega
    · obtain rfl | he := List.mem_cons.mp he
      · exact overlaps
      · have := h.before e he
        omega

theorem resolveOverlaps_of_sorted
    (sorted : candidates.Pairwise fun a b => (compare a.span b.span).isLE) :
    resolveOverlaps candidates = List.reverse <$> candidates.foldlM keep [] := by
  rw [resolveOverlaps, List.mergeSort_of_pairwise sorted]
  cases candidates.foldlM keep [] <;> rfl

-- Every candidate that is dropped falls to a survivor that beats it, along a chain of overlaps lost to
-- candidates. It lost to a survivor itself exactly when it overlaps a survivor at all.
theorem losesTo_survivor_iff (h : resolveOverlaps candidates = .ok kept) :
    ∃ lost, candidates.Perm (kept ++ lost) ∧ ∀ d ∈ lost,
      (∃ s ∈ kept, Relation.TransGen (LosesWithin candidates) d s ∧ s.Beats d) ∧
      ((∃ s ∈ kept, d.LosesTo s) ↔ ∃ s ∈ kept, d.span.overlaps s.span) := by
  unfold resolveOverlaps at h
  obtain ⟨survivors, hs, h⟩ := bind_eq_ok.mp h
  cases h
  have sorted := sorted_mergeSort candidates
  have perm := List.mergeSort_perm candidates fun a b => (compare a.span b.span).isLE
  have ⟨stacked, _⟩ := foldlM_keep_stacked hs .nil sorted (by simp)
  obtain ⟨lost, perm', falls⟩ :=
    foldlM_keep_lost hs .nil sorted (by simp) fun d hd => perm.mem_iff.mp hd
  refine ⟨lost, ?_, fun d hd => ?_⟩
  case _ =>
    have reverse : survivors.Perm survivors.reverse := (List.reverse_perm survivors).symm
    exact perm.symm.trans (perm'.trans (reverse.append_right lost))
  case _ =>
    obtain ⟨front, heir, rest, rfl, fall⟩ := falls d hd
    have survives : heir ∈ (front ++ heir :: rest).reverse := by simp
    have beaten := beats_of_chain fall.chain
    refine ⟨⟨heir, survives, fall.chain, beaten⟩, ?_, ?_⟩
    case _ => exact fun ⟨s, hs, loses⟩ => ⟨s, hs, loses.overlaps⟩
    case _ =>
      rintro ⟨s, hs, overlaps⟩
      exact ⟨heir, survives, fall.overlaps stacked (List.mem_reverse.mp hs) overlaps, beaten⟩

-- Of four candidates the second and the third lose to the first, and the first loses to the fourth: the
-- fourth is the only survivor, and of the losers the second does not overlap it.
theorem losesTo_survivor_iff_chain :
    let candidate (start length specificity : Nat) : Candidate :=
      ⟨⟨"8.0.100", .semver (.release 8 0 100)⟩, .ofLength start length, 1, specificity, false⟩
    let candidates := [candidate 0 10 2, candidate 1 2 1, candidate 4 3 1, candidate 5 3 3]
    resolveOverlaps candidates = .ok [candidate 5 3 3] ∧
    ∃ lost, candidates.Perm ([candidate 5 3 3] ++ lost) ∧ ∀ d ∈ lost,
      (∃ s ∈ [candidate 5 3 3], Relation.TransGen (LosesWithin candidates) d s ∧ s.Beats d) ∧
      ((∃ s ∈ [candidate 5 3 3], d.LosesTo s) ↔ ∃ s ∈ [candidate 5 3 3], d.span.overlaps s.span) := by
  intro candidate candidates
  have resolved : resolveOverlaps candidates = .ok [candidate 5 3 3] :=
    (resolveOverlaps_of_sorted (by decide)).trans rfl
  exact ⟨resolved, losesTo_survivor_iff resolved⟩

-- A candidate that lost to one that lost in its turn is dropped, although no survivor overlaps it.
theorem not_losesTo_survivor :
    let candidate (start length specificity : Nat) : Candidate :=
      ⟨⟨"8.0.100", .semver (.release 8 0 100)⟩, .ofLength start length, 1, specificity, false⟩
    resolveOverlaps [candidate 0 10 2, candidate 1 2 1, candidate 5 3 3] = .ok [candidate 5 3 3] ∧
    candidate 1 2 1 ∉ [candidate 5 3 3] ∧
    ∀ s ∈ [candidate 5 3 3], ¬ (candidate 1 2 1).LosesTo s := by
  intro candidate
  refine ⟨(resolveOverlaps_of_sorted (by decide)).trans rfl, by decide, ?_⟩
  rintro s hs loses
  cases List.mem_singleton.mp hs
  exact absurd loses.overlaps (by decide)

end Candidate
end Repin
