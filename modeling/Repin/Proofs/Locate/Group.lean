import Repin.Proofs.Locate.Survivor
import Repin.Proofs.Locate.Tie
/-!
# Candidates with one span

Sorted candidates with one span stand in the order in which they were found, and the last survivor in front
of them is the only other candidate that they meet. What becomes of them depends on their order exactly
where they are disputed: where a tie is told in one order and hidden in another one, or where spans are
empty, so that nothing is ever dropped for a candidate of the same place.
-/
namespace Repin

namespace Candidate

variable {candidates group group' kept kept' next order order' : List Candidate}
variable {b c d last : Candidate} {last? last?' : Option Candidate} {fault : Fault}

-- What counts of a candidate where it is compared.
def place (c : Candidate) : Span × Nat :=
  (c.span, c.specificity)

-- How a candidate meets the last survivor, if there is one: it becomes the last survivor, is dropped, or
-- ties with it.
def meets (last? : Option Candidate) (c : Candidate) : Except Fault Bool :=
  match last? with
  | none => .ok true
  | some last => if last.span.overlaps c.span then c.replaces last else .ok true

-- The survivors below a new one of the given span.
def below (s : Span) : List Candidate → List Candidate
  | [] => []
  | last :: kept => if last.span.overlaps s then kept else last :: kept

theorem keep_eq : keep kept c = do
    if ← meets kept.head? c then return c :: below c.span kept else return kept := by
  cases kept with
  | nil => rfl
  | cons last kept =>
    cases ho : last.span.overlaps c.span with
    | false => simp [keep, meets, below, ho, pure, Except.pure]
    | true =>
      simp only [keep, meets, below, List.head?_cons, ho, if_true, Bool.not_true, Bool.false_eq_true,
        if_false]

theorem keep_of_enters (h : meets kept.head? c = .ok true) :
    keep kept c = .ok (c :: below c.span kept) := by
  rw [keep_eq, h]
  rfl

theorem keep_of_dropped (h : meets kept.head? c = .ok false) : keep kept c = .ok kept := by
  rw [keep_eq, h]
  rfl

theorem keep_of_tie (h : meets kept.head? c = .error fault) : keep kept c = .error fault := by
  rw [keep_eq, h]
  rfl

theorem meets_congr (hl : last?.map place = last?'.map place) (hc : place c = place d) :
    meets last? c = meets last?' d := by
  cases last? with
  | none =>
    cases last?' with
    | none => rfl
    | some => cases hl
  | some last =>
    cases last?' with
    | none => cases hl
    | some last' =>
      have hl := Option.some.inj hl
      simp only [place, Prod.mk.injEq] at hl hc
      simp only [meets, replaces, hl, hc]

-- Of two candidates with one span the more specific one becomes a survivor if the other one does.
theorem meets_of_le (same : c.span = d.span) (le : c.specificity ≤ d.specificity)
    (h : meets last? c = .ok true) : meets last? d = .ok true := by
  obtain eq | lt := Nat.eq_or_lt_of_le le
  case inl =>
    rw [← h]
    exact meets_congr rfl (by simp [place, same, eq])
  case inr =>
    cases last? with
    | none => rfl
    | some last =>
      rw [meets, same] at h
      rw [meets]
      split
      case isFalse => rfl
      case isTrue overlaps =>
        rw [if_pos overlaps] at h
        have lower : last.specificity ≤ c.specificity := by
          cases beats_of_replaces h with
          | specific lt => exact Nat.le_of_lt lt
          | inner eq => exact Nat.le_of_eq eq.symm
        have lt := Nat.lt_of_le_of_lt lower lt
        rw [replaces, if_pos (Nat.ne_of_gt lt), decide_eq_true lt]

theorem specificity_lt_of_dropped (same : c.span = d.span) (hc : meets last? c = .ok false)
    (hd : meets last? d = .ok true) : c.specificity < d.specificity := by
  by_contra le
  rw [meets_of_le same.symm (Nat.le_of_not_lt le) hd] at hc
  cases hc

-- Candidates with one span, which is not empty, contend for one place.
theorem contest_keep {s : Span} (filled : s.isEmpty = false) (kept : List Candidate) :
    Contest (·.specificity) (fun c => c.span = s) (· :: kept) keep := by
  have overlaps : s.overlaps s := by rw [Span.overlaps_self, filled]; rfl
  have meets_eq {b c : Candidate} (hb : b.span = s) (hc : c.span = s) :
      meets (some b) c = c.replaces b := by
    rw [meets, hb, hc, if_pos overlaps]
  have below_eq {b c : Candidate} (hb : b.span = s) (hc : c.span = s) :
      below c.span (b :: kept) = kept := by
    rw [below, hb, hc, if_pos overlaps]
  constructor
  case tie =>
    intro b c hb hc same
    have tie : meets (b :: kept).head? c = .error (.tiedCandidates c.span) := by
      rw [List.head?_cons, meets_eq hb hc, replaces, if_neg (not_not.mpr same), if_pos (hb.trans hc.symm)]
    exact ⟨_, keep_of_tie tie⟩
  case greater =>
    intro b c hb hc lt
    rw [keep_of_enters, below_eq hb hc]
    rw [List.head?_cons, meets_eq hb hc, replaces, if_pos (Nat.ne_of_gt lt), decide_eq_true lt]
  case less =>
    intro b c hb hc lt
    apply keep_of_dropped
    rw [List.head?_cons, meets_eq hb hc, replaces, if_pos (Nat.ne_of_lt lt),
      decide_eq_false (Nat.lt_asymm lt)]

-- What the order of candidates with one span decides, behind a last survivor.
inductive Disputed (last? : Option Candidate) (group : List Candidate) : Prop where
  -- A candidate ties with the last survivor, unless a more specific one took its place before.
  | tie {c : Candidate} {fault : Fault} : c ∈ group → meets last? c = .error fault → Disputed last? group
  -- Two candidates tie, unless a more specific one took their place before.
  | twins {c d : Candidate} : [c, d].Subperm group → c.span.isEmpty = false →
    c.specificity = d.specificity → meets last? c = .ok true → Disputed last? group
  -- Empty spans do not overlap each other, so candidates of one place are kept in their order.
  | empty {c d : Candidate} : c ∈ group → d ∈ group → c.span.isEmpty →
    c.specificity ≠ d.specificity → meets last? c = .ok true → Disputed last? group

-- The ways in which candidates with one span go.
inductive Passes (s : Span) (kept group : List Candidate) : Except Fault (List Candidate) → Prop where
  | dropped : (∀ c ∈ group, meets kept.head? c = .ok false) → Passes s kept group (.ok kept)
  | taken {top : Candidate} : s.isEmpty = false → top ∈ group → meets kept.head? top = .ok true →
    (∀ c ∈ group, c.specificity ≤ top.specificity) →
      Passes s kept group (.ok (top :: below s kept))
  | stacked {front back : List Candidate} {first : Candidate} : s.isEmpty →
    group = front ++ first :: back → (∀ c ∈ front, meets kept.head? c = .ok false) →
      meets kept.head? first = .ok true →
        Passes s kept group (.ok (back.reverse ++ first :: below s kept))
  | refused {fault : Fault} : Disputed kept.head? group → Passes s kept group (.error fault)

theorem foldlM_keep_of_isEmpty {s : Span} (empty : s.isEmpty) (hc : c.span = s)
    (hg : ∀ d ∈ group, d.span = s) :
    group.foldlM keep (c :: kept) = .ok (group.reverse ++ c :: kept) := by
  induction group generalizing c kept with
  | nil => rfl
  | cons d group ih =>
    obtain ⟨hd, hg⟩ := List.forall_mem_cons.mp hg
    have apart : c.span.overlaps d.span = false := by rw [hc, hd, Span.overlaps_self, empty]; rfl
    have step : keep (c :: kept) d = .ok (d :: c :: kept) := by simp [keep, apart]
    rw [List.foldlM_cons, step, ok_bind, ih hd hg]
    simp

theorem passes {s : Span} (hg : ∀ c ∈ group, c.span = s) (kept : List Candidate) :
    Passes s kept group (group.foldlM keep kept) := by
  induction group with
  | nil => exact .dropped (List.forall_mem_nil _)
  | cons c group ih =>
    have ⟨hc, hg'⟩ := List.forall_mem_cons.mp hg
    rw [List.foldlM_cons]
    cases hm : meets kept.head? c with
    | error fault =>
      rw [keep_of_tie hm, error_bind]
      exact .refused (.tie List.mem_cons_self hm)
    | ok enters =>
      cases enters with
      | false =>
        rw [keep_of_dropped hm, ok_bind]
        generalize group.foldlM keep kept = result at ih
        cases ih hg' with
        | dropped none => exact .dropped (List.forall_mem_cons.mpr ⟨hm, none⟩)
        | taken filled ht enters le =>
          refine .taken filled (List.mem_cons_of_mem c ht) enters (List.forall_mem_cons.mpr ⟨?_, le⟩)
          exact Nat.le_of_lt (specificity_lt_of_dropped (hc.trans (hg' _ ht).symm) hm enters)
        | @stacked front back first empty heq none enters =>
          have whole : c :: group = (c :: front) ++ first :: back := congrArg (c :: ·) heq
          exact .stacked empty whole (List.forall_mem_cons.mpr ⟨hm, none⟩) enters
        | refused disputed =>
          refine .refused ?_
          cases disputed with
          | tie hd tie => exact .tie (List.mem_cons_of_mem c hd) tie
          | twins sub filled same enters =>
            exact .twins (sub.trans (List.sublist_cons_self c group).subperm) filled same enters
          | empty hd he empty ne enters =>
            exact .empty (List.mem_cons_of_mem c hd) (List.mem_cons_of_mem c he) empty ne enters
      | true =>
        rw [keep_of_enters hm, ok_bind, hc]
        cases hs : s.isEmpty with
        | true =>
          rw [foldlM_keep_of_isEmpty hs hc hg']
          have whole : c :: group = [] ++ c :: group := rfl
          exact .stacked hs whole (List.forall_mem_nil _) hm
        | false =>
          have contest := contest_keep hs (below s kept)
          obtain ⟨ties, fault, run⟩ | ⟨_, top, isTop, run⟩ := contest.foldlM_cases hc hg'
          case inl =>
            -- the ones that tie are no less specific than the first one, so they would take its place
            obtain ⟨x, y, sub, same, le⟩ := ties.exists_sublist
            have spans : ∀ d ∈ [x, y], d.span = s := fun d hd => hg d (sub.subset hd)
            have hx := spans x (by simp)
            rw [run]
            refine .refused (.twins sub.subperm (hx ▸ hs) same ?_)
            exact meets_of_le (hc.trans hx.symm) (same ▸ le) hm
          case inr =>
            have ht := hg top isTop.mem
            have le := isTop.le (List.mem_cons_self (a := c) (l := group))
            rw [run]
            exact .taken hs isTop.mem (meets_of_le (hc.trans ht.symm) le hm) fun d hd => isTop.le hd

theorem Disputed.of_perm (h : Disputed last? group) (perm : group.Perm group') :
    Disputed last? group' := by
  cases h with
  | tie hc tie => exact .tie (perm.mem_iff.mp hc) tie
  | twins sub filled same enters => exact .twins (sub.trans perm.subperm) filled same enters
  | empty hc hd empty ne enters =>
    exact .empty (perm.mem_iff.mp hc) (perm.mem_iff.mp hd) empty ne enters

-- Where candidates of an empty span are not disputed, all of them are kept.
theorem Passes.map_place_stacked {s : Span} {front back : List Candidate} {first : Candidate}
    (hg : ∀ c ∈ front ++ first :: back, c.span = s) (empty : s.isEmpty)
    (h : ¬ Disputed last? (front ++ first :: back))
    (none : ∀ c ∈ front, meets last? c = .ok false) (enters : meets last? first = .ok true) :
    (back.reverse ++ first :: kept).map place
      = List.replicate (front ++ first :: back).length (place first) ++ kept.map place := by
  have same : ∀ c ∈ front ++ first :: back, place c = place first := by
    intro c hc
    have hf : first ∈ front ++ first :: back := by simp
    have equal : first.specificity = c.specificity := by
      by_contra ne
      exact h (.empty hf hc (hg first hf ▸ empty) ne enters)
    simp only [place, Prod.mk.injEq]
    exact ⟨(hg c hc).trans (hg first hf).symm, equal.symm⟩
  have front_nil : front = [] := by
    refine List.eq_nil_iff_forall_not_mem.mpr fun c hc => ?_
    have dropped := none c hc
    rw [meets_congr rfl (same c (List.mem_append_left _ hc)), enters] at dropped
    cases dropped
  subst front_nil
  have behind : back.map place = List.replicate back.length (place first) := by
    rw [List.eq_replicate_iff]
    refine ⟨List.length_map .., fun p hp => ?_⟩
    obtain ⟨c, hc, rfl⟩ := List.mem_map.mp hp
    exact same c (List.mem_cons_of_mem _ hc)
  simp [behind, List.replicate_succ']

-- Two orders that leave survivors leave the same ones.
theorem Passes.map_place_eq {s : Span} {next' : List Candidate} (h : Passes s kept group (.ok next))
    (h' : Passes s kept group' (.ok next')) (hg : ∀ c ∈ group, c.span = s) (perm : group'.Perm group)
    (settled : s.isEmpty → ¬ Disputed kept.head? group) : next'.map place = next.map place := by
  -- what enters in one order is dropped in no other
  have clash {c : Candidate} {P : Prop} (hc : meets kept.head? c = .ok true)
      (hd : meets kept.head? c = .ok false) : P := by
    rw [hc] at hd
    cases hd
  cases h with
  | dropped none =>
    cases h' with
    | dropped => rfl
    | taken _ ht enters => exact clash enters (none _ (perm.mem_iff.mp ht))
    | stacked _ heq _ enters =>
      exact clash enters (none _ (perm.mem_iff.mp (heq ▸ List.mem_append_right _ List.mem_cons_self)))
  | taken filled ht enters le =>
    cases h' with
    | dropped none => exact clash enters (none _ (perm.mem_iff.mpr ht))
    | taken _ ht' _ le' =>
      have top := perm.mem_iff.mp ht'
      have equal := Nat.le_antisymm (le _ top) (le' _ (perm.mem_iff.mpr ht))
      simp [place, hg _ top, hg _ ht, equal]
    | stacked empty => exact absurd empty (by simp [filled])
  | @stacked front back first empty heq none enters =>
    cases h' with
    | dropped none' =>
      subst heq
      exact clash enters (none' _ (perm.mem_iff.mpr (by simp)))
    | taken filled => exact absurd empty (by simp [filled])
    | @stacked front' back' first' _ heq' none' enters' =>
      subst heq heq'
      have settled := settled empty
      have settled' : ¬ Disputed kept.head? (front' ++ first' :: back') :=
        fun disputed => settled (disputed.of_perm perm)
      have hg' : ∀ c ∈ front' ++ first' :: back', c.span = s := fun c hc => hg c (perm.mem_iff.mp hc)
      rw [map_place_stacked hg empty settled none enters,
        map_place_stacked hg' empty settled' none' enters', perm.length_eq]
      congr 2
      by_contra ne
      have hf : first' ∈ front' ++ first' :: back' := by simp
      have hf₀ : first ∈ front ++ first :: back := by simp
      refine settled (.empty hf₀ (perm.mem_iff.mp hf) (hg first hf₀ ▸ empty) (fun equal => ne ?_) enters)
      simp only [place, Prod.mk.injEq]
      exact ⟨(hg' _ hf).trans (hg _ hf₀).symm, equal.symm⟩

theorem exists_of_not_disputed {s : Span} (hg : ∀ c ∈ group, c.span = s)
    (h : ¬ Disputed kept.head? group) : ∃ next, group.foldlM keep kept = .ok next := by
  have passes := passes hg kept
  generalize group.foldlM keep kept = result at passes
  cases passes with
  | refused disputed => exact absurd disputed h
  | dropped => exact ⟨_, rfl⟩
  | taken => exact ⟨_, rfl⟩
  | stacked => exact ⟨_, rfl⟩

theorem keep_congr (hk : kept'.map place = kept.map place) (c : Candidate) :
    (·.map place) <$> keep kept' c = (·.map place) <$> keep kept c := by
  have heads : kept'.head?.map place = kept.head?.map place := by
    rw [← List.head?_map, ← List.head?_map, hk]
  have under : (below c.span kept').map place = (below c.span kept).map place := by
    cases kept' with
    | nil => rw [List.map_eq_nil_iff.mp hk.symm]
    | cons last' kept' =>
      cases kept with
      | nil => cases hk
      | cons last kept =>
        simp only [List.map_cons, List.cons.injEq] at hk
        have same : last'.span = last.span := congrArg Prod.fst hk.left
        simp only [below, same]
        split
        · exact hk.right
        · simp [hk]
  cases hm : meets kept.head? c with
  | error fault => rw [keep_of_tie hm, keep_of_tie ((meets_congr heads rfl).trans hm)]
  | ok enters =>
    have hm' := (meets_congr heads (rfl : place c = place c)).trans hm
    cases enters with
    | false => rw [keep_of_dropped hm, keep_of_dropped hm', map_eq_ok.mpr ⟨_, rfl, hk⟩]; rfl
    | true =>
      rw [keep_of_enters hm, keep_of_enters hm']
      exact congrArg Except.ok (congrArg (place c :: ·) under)

theorem foldlM_keep_congr (hk : kept'.map place = kept.map place)
    (h : candidates.foldlM keep kept = .ok next) :
    ∃ next', candidates.foldlM keep kept' = .ok next' ∧ next'.map place = next.map place := by
  induction candidates generalizing kept kept' with
  | nil =>
    cases h
    exact ⟨kept', rfl, hk⟩
  | cons c candidates ih =>
    rw [List.foldlM_cons] at h ⊢
    obtain ⟨step, hs, h⟩ := bind_eq_ok.mp h
    have same := keep_congr hk c
    rw [hs] at same
    obtain ⟨step', hs', hk'⟩ := map_eq_ok.mp same
    obtain ⟨next', hn, places⟩ := ih hk' h
    exact ⟨next', by rw [hs', ok_bind, hn], places⟩

end Candidate
end Repin
