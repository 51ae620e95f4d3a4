import Mathlib.Order.WellFounded
import Repin.Proofs.Locate.Group
/-!
# Candidates in any order

Candidates are sorted by their spans before they are resolved, so their order counts only among those with
one span. Where none of these are disputed in an order that returns, all other orders return the same
survivors; where some are, another order does not.

Main statement: `Candidate.orderIndependent_iff`.
-/
namespace Repin

namespace Candidate

variable {candidates order order' group group' rest rest' : List Candidate}
variable {kept kept' lower next next' survivors : List Candidate}
variable {b c d : Candidate} {s t : Span}

-- Sorted by their spans.
def InOrder (order : List Candidate) : Prop :=
  order.Pairwise fun a b => (compare a.span b.span).isLE

-- The candidates in front of a span.
def before (s : Span) (order : List Candidate) : List Candidate :=
  order.filter fun c => compare c.span s = .lt

-- The candidates with a span.
def withSpan (s : Span) (order : List Candidate) : List Candidate :=
  order.filter (·.span = s)

-- The candidates behind a span.
def behind (s : Span) (order : List Candidate) : List Candidate :=
  order.filter fun c => compare s c.span = .lt

-- In an order, the candidates with some span are disputed by the survivors in front of it.
def Hides (order : List Candidate) : Prop :=
  ∃ s survivors, resolveOverlaps (before s order) = .ok survivors ∧
    Disputed survivors.getLast? (withSpan s order)

-- The places that are kept, where candidates can be resolved.
def outcome (candidates : List Candidate) : Option (List (Span × Nat)) :=
  (resolveOverlaps candidates).toOption.map (·.map place)

-- Candidates that are resolved alike in every order.
def OrderIndependent (candidates : List Candidate) : Prop :=
  ∀ order, order.Perm candidates → outcome order = outcome candidates

theorem mem_withSpan : c ∈ withSpan s order ↔ c ∈ order ∧ c.span = s := by
  simp [withSpan]

theorem mem_behind : c ∈ behind s order ↔ c ∈ order ∧ compare s c.span = .lt := by
  simp [behind]

theorem before_eq_nil_iff : before s order = [] ↔ ∀ c ∈ order, compare c.span s ≠ .lt := by
  simp [before]

theorem withSpan_eq_nil_iff : withSpan s order = [] ↔ ∀ c ∈ order, c.span ≠ s := by
  simp [withSpan]

namespace InOrder

theorem of_map_span (h : InOrder order) (spans : order'.map (·.span) = order.map (·.span)) :
    InOrder order' := by
  have sorted : (order.map (·.span)).Pairwise fun s t => (compare s t).isLE := List.pairwise_map.mpr h
  rw [← spans] at sorted
  exact List.pairwise_map.mp sorted

theorem before (h : InOrder order) (s : Span) : InOrder (before s order) :=
  h.filter _

theorem resolveOverlaps_eq_ok (h : InOrder order) :
    resolveOverlaps order = .ok kept ↔ order.foldlM keep [] = .ok kept.reverse := by
  rw [resolveOverlaps_of_sorted h, map_eq_ok]
  constructor
  case mp =>
    rintro ⟨survivors, run, rfl⟩
    rwa [List.reverse_reverse]
  case mpr => exact fun run => ⟨_, run, List.reverse_reverse kept⟩

-- Around a span an order is cut in three.
theorem cut (h : InOrder order) (s : Span) :
    Candidate.before s order ++ (withSpan s order ++ behind s order) = order := by
  have irrefl (s : Span) : compare s s ≠ .lt := by simp [Span.compare_eq_lt_iff]
  induction order with
  | nil => rfl
  | cons c rest ih =>
    obtain ⟨first, h⟩ := List.pairwise_cons.mp h
    have ih := ih h
    obtain lt | rfl | gt := Span.lt_or_eq_or_gt c.span s
    case inl =>
      have ne : c.span ≠ s := by
        rintro rfl
        exact irrefl _ lt
      have not_gt := Span.not_lt_of_isLE (Span.isLE_of_compare_eq_lt lt)
      rw [Candidate.before, withSpan, behind, List.filter_cons_of_pos (by simpa using lt),
        List.filter_cons_of_neg (by simpa using ne), List.filter_cons_of_neg (by simpa using not_gt)]
      exact congrArg (c :: ·) ih
    case inr.inl =>
      have none : Candidate.before c.span rest = [] :=
        before_eq_nil_iff.mpr fun d hd => Span.not_lt_of_isLE (first d hd)
      rw [none, List.nil_append] at ih
      have none : Candidate.before c.span (c :: rest) = [] :=
        before_eq_nil_iff.mpr (List.forall_mem_cons.mpr ⟨irrefl _, before_eq_nil_iff.mp none⟩)
      rw [none, withSpan, behind, List.filter_cons_of_pos (by simp),
        List.filter_cons_of_neg (by simpa using irrefl c.span)]
      exact congrArg (c :: ·) ih
    case inr.inr =>
      have after : ∀ d ∈ rest, compare s d.span = .lt := by
        intro d hd
        have le := first d hd
        rw [Span.isLE_compare_iff] at le
        rw [Span.compare_eq_lt_iff] at gt ⊢
        omega
      have after : ∀ d ∈ c :: rest, compare s d.span = .lt := List.forall_mem_cons.mpr ⟨gt, after⟩
      have front : Candidate.before s (c :: rest) = [] :=
        before_eq_nil_iff.mpr fun d hd => Span.not_lt_of_isLE (Span.isLE_of_compare_eq_lt (after d hd))
      have none : withSpan s (c :: rest) = [] := by
        rw [withSpan_eq_nil_iff]
        rintro d hd rfl
        exact irrefl _ (after d hd)
      rw [front, none, behind, List.filter_eq_self.mpr (by simpa using after)]
      rfl

end InOrder

-- Two orders of the same candidates, span by span.
inductive Regrouped : List Candidate → List Candidate → Prop where
  | nil : Regrouped [] []
  | group {s : Span} {group group' rest rest' : List Candidate} : (∀ c ∈ group, c.span = s) →
    group'.Perm group → (∀ c ∈ rest, compare s c.span = .lt) → Regrouped rest rest' →
      Regrouped (group ++ rest) (group' ++ rest')

theorem regrouped_of_perm (perm : order'.Perm order) (h : InOrder order) (h' : InOrder order') :
    Regrouped order order' := by
  induction hn : order.length using Nat.strongRecOn generalizing order order' with
  | _ n ih =>
    cases order with
    | nil =>
      rw [perm.eq_nil]
      exact .nil
    | cons c rest =>
      have first : ∀ d ∈ c :: rest, (compare c.span d.span).isLE := by
        refine List.forall_mem_cons.mpr ⟨?_, (List.pairwise_cons.mp h).left⟩
        rw [Span.isLE_compare_iff]
        omega
      have none : before c.span (c :: rest) = [] :=
        before_eq_nil_iff.mpr fun d hd => Span.not_lt_of_isLE (first d hd)
      have none' : before c.span order' = [] := List.perm_nil.mp (none ▸ perm.filter _)
      rw [← h.cut c.span, ← h'.cut c.span, none, none', List.nil_append, List.nil_append]
      refine .group (fun d hd => (mem_withSpan.mp hd).right) (perm.filter _)
        (fun d hd => (mem_behind.mp hd).right) ?_
      refine ih _ ?_ (perm.filter _) (h.filter _) (h'.filter _) rfl
      -- the first one has the span itself
      have first : c ∈ withSpan c.span (c :: rest) := mem_withSpan.mpr ⟨List.mem_cons_self, rfl⟩
      have lengths := congrArg List.length (h.cut c.span)
      rw [none, List.nil_append, List.length_append, hn] at lengths
      have := List.length_pos_of_mem first
      omega

theorem Disputed.exists_mem {last? : Option Candidate} (h : Disputed last? group) : ∃ c, c ∈ group := by
  cases h with
  | tie hc => exact ⟨_, hc⟩
  | twins sub => exact ⟨_, sub.subset List.mem_cons_self⟩
  | empty hc => exact ⟨_, hc⟩

-- The candidates with some span are disputed by the survivors in front of it, from some survivors on.
def HidesFrom (kept order : List Candidate) : Prop :=
  ∃ s survivors, (before s order).foldlM keep kept = .ok survivors ∧
    Disputed survivors.head? (withSpan s order)

theorem InOrder.hides_iff (h : InOrder order) : Hides order ↔ HidesFrom [] order := by
  constructor
  case mp =>
    rintro ⟨s, survivors, run, disputed⟩
    rw [(h.before s).resolveOverlaps_eq_ok] at run
    exact ⟨s, survivors.reverse, run, by rwa [List.head?_reverse]⟩
  case mpr =>
    rintro ⟨s, survivors, run, disputed⟩
    refine ⟨s, survivors.reverse, ?_, by rwa [List.getLast?_reverse]⟩
    rwa [(h.before s).resolveOverlaps_eq_ok, List.reverse_reverse]

-- What is disputed among the first candidates or among the later ones is disputed among all of them.
theorem hidesFrom_append (hg : ∀ c ∈ group, c.span = s) (hr : ∀ c ∈ rest, compare s c.span = .lt)
    (run : group.foldlM keep kept = .ok next) (h : ¬ HidesFrom kept (group ++ rest)) :
    ¬ Disputed kept.head? group ∧ ¬ HidesFrom next rest := by
  have lt_irrefl : compare s s ≠ .lt := by simp [Span.compare_eq_lt_iff]
  constructor
  case left =>
    refine fun disputed => h ⟨s, kept, ?_, ?_⟩
    case _ =>
      have none : before s (group ++ rest) = [] := by
        refine List.filter_eq_nil_iff.mpr fun c hc => ?_
        rw [decide_eq_true_eq]
        obtain hc | hc := List.mem_append.mp hc
        · rwa [hg c hc]
        · have lt := hr c hc
          rw [Span.compare_eq_lt_iff] at lt ⊢
          omega
      rw [none]
      rfl
    case _ =>
      have all : withSpan s group = group := List.filter_eq_self.mpr (by simpa using hg)
      have none : withSpan s rest = [] := by
        refine List.filter_eq_nil_iff.mpr fun c hc => ?_
        rw [decide_eq_true_eq]
        intro same
        exact lt_irrefl (same ▸ hr c hc)
      rw [withSpan, List.filter_append]
      rw [withSpan] at all none
      rwa [all, none, List.append_nil]
  case right =>
    rintro ⟨t, survivors, later, disputed⟩
    obtain ⟨c, member⟩ := disputed.exists_mem
    obtain ⟨hc, rfl⟩ := mem_withSpan.mp member
    refine h ⟨c.span, survivors, ?_, ?_⟩
    case _ =>
      have all : before c.span group = group :=
        List.filter_eq_self.mpr fun d hd => by rw [hg d hd, decide_eq_true (hr c hc)]
      rw [before] at all later
      rw [before, List.filter_append, all, List.foldlM_append, run, ok_bind, later]
    case _ =>
      have none : withSpan c.span group = [] := by
        refine List.filter_eq_nil_iff.mpr fun d hd => ?_
        rw [decide_eq_true_eq, hg d hd]
        intro same
        exact lt_irrefl (same ▸ hr c hc)
      rw [withSpan] at none disputed
      rwa [withSpan, List.filter_append, none, List.nil_append]

-- Where nothing is disputed in an order that returns, every other order returns the same places.
theorem Regrouped.exists_run (h : Regrouped order order') (same : kept'.map place = kept.map place)
    (hidden : ¬ HidesFrom kept order) (run : order.foldlM keep kept = .ok next) :
    ∃ next', order'.foldlM keep kept' = .ok next' ∧ next'.map place = next.map place := by
  induction h generalizing kept kept' with
  | nil =>
    cases run
    exact ⟨kept', rfl, same⟩
  | @group s group group' rest rest' hg perm hr _ ih =>
    rw [List.foldlM_append] at run
    obtain ⟨middle, hm, run⟩ := bind_eq_ok.mp run
    obtain ⟨settled, hidden⟩ := hidesFrom_append hg hr hm hidden
    have hg' : ∀ c ∈ group', c.span = s := fun c hc => hg c (perm.mem_iff.mp hc)
    obtain ⟨other, ho⟩ := exists_of_not_disputed hg' fun disputed => settled (disputed.of_perm perm)
    have places := (hm ▸ passes hg kept).map_place_eq (ho ▸ passes hg' kept) hg perm fun _ => settled
    obtain ⟨middle', hm', places'⟩ := foldlM_keep_congr same ho
    obtain ⟨next', hn, result⟩ := ih (places'.trans places) hidden run
    exact ⟨next', by rw [List.foldlM_append, hm', ok_bind, hn], result⟩

-- Where no span is empty, two orders that return keep the same places.
theorem Regrouped.map_place_eq (h : Regrouped order order') (same : kept'.map place = kept.map place)
    (filled : ∀ c ∈ order, c.span.isEmpty = false) (run : order.foldlM keep kept = .ok next)
    (run' : order'.foldlM keep kept' = .ok next') : next'.map place = next.map place := by
  induction h generalizing kept kept' with
  | nil =>
    cases run
    cases run'
    exact same
  | @group s group group' rest rest' hg perm hr _ ih =>
    obtain ⟨filled, filled_rest⟩ := List.forall_mem_append.mp filled
    rw [List.foldlM_append] at run run'
    obtain ⟨middle, hm, run⟩ := bind_eq_ok.mp run
    obtain ⟨middle', hm', run'⟩ := bind_eq_ok.mp run'
    have hg' : ∀ c ∈ group', c.span = s := fun c hc => hg c (perm.mem_iff.mp hc)
    have settled : s.isEmpty → ¬ Disputed kept.head? group := by
      intro empty disputed
      obtain ⟨c, hc⟩ := disputed.exists_mem
      have := filled c hc
      rw [hg c hc, empty] at this
      cases this
    obtain ⟨other, ho, places'⟩ := foldlM_keep_congr same.symm hm'
    have places := (hm ▸ passes hg kept).map_place_eq (ho ▸ passes hg' kept) hg perm settled
    exact ih (places'.symm.trans places) filled_rest run run'

theorem keep_append (apart : ∀ last ∈ lower.head?, last.span.overlaps c.span = false) :
    keep (kept ++ lower) c = (· ++ lower) <$> keep kept c := by
  cases kept with
  | nil =>
    cases lower with
    | nil => rfl
    | cons last lower => simp [keep, apart last rfl, Functor.map, Except.map]
  | cons last kept =>
    cases ho : last.span.overlaps c.span with
    | false => simp [keep, ho, Functor.map, Except.map]
    | true =>
      cases hr : c.replaces last with
      | error => simp [keep, ho, hr, Functor.map, Except.map]
      | ok wins => cases wins <;> simp [keep, ho, hr, pure, Except.pure, Functor.map, Except.map]

-- What lies below a survivor that nothing overlaps any more stays as it is.
theorem foldlM_keep_append
    (apart : ∀ c ∈ candidates, ∀ last ∈ lower.head?, last.span.overlaps c.span = false) :
    candidates.foldlM keep (kept ++ lower) = (· ++ lower) <$> candidates.foldlM keep kept := by
  induction candidates generalizing kept with
  | nil => rfl
  | cons c candidates ih =>
    obtain ⟨first, apart⟩ := List.forall_mem_cons.mp apart
    rw [List.foldlM_cons, List.foldlM_cons, keep_append first]
    cases keep kept c with
    | error => rfl
    | ok next => exact ih apart

-- Behind candidates with an empty span all others pass as without survivors.
theorem exists_of_foldlM_keep_later (empty : s.isEmpty) (hg : ∀ d ∈ group, d.span = s)
    (hc : c.span = s) (later : ∀ d ∈ rest, (compare s d.span).isLE)
    (run : rest.foldlM keep (group.reverse ++ c :: kept) = .ok next) :
    ∃ top, rest.foldlM keep [] = .ok top ∧ next = top ++ (group.reverse ++ c :: kept) := by
  have apart : ∀ d ∈ rest, ∀ last ∈ (group.reverse ++ c :: kept).head?,
      last.span.overlaps d.span = false := by
    intro d hd last hl
    have span : last.span = s := by
      have split : group.reverse ++ c :: kept = (group.reverse ++ [c]) ++ kept := by simp
      rw [split, List.head?_append_of_ne_nil _ (by simp)] at hl
      obtain hl | hl := List.mem_append.mp (List.mem_of_head? hl)
      · exact hg last (List.mem_reverse.mp hl)
      · exact List.mem_singleton.mp hl ▸ hc
    rw [span, Span.overlaps_of_isEmpty empty (later d hd)]
  rw [← List.nil_append (group.reverse ++ c :: kept), foldlM_keep_append apart] at run
  obtain ⟨top, alone, rfl⟩ := map_eq_ok.mp run
  exact ⟨top, alone, rfl⟩

theorem exists_perm_of_subperm (sub : [c, d].Subperm group) :
    ∃ others, (c :: d :: others).Perm group := by
  obtain ⟨pair, perm, sub⟩ := sub
  obtain ⟨others, exchanged⟩ := sub.exists_perm_append
  exact ⟨others, (perm.symm.append_right others).trans exchanged.symm⟩

-- Two candidates with one empty span, of which the first one enters, in both orders.
theorem eq_of_exchanged {others : List Candidate} {places : List (Span × Nat)} (empty : s.isEmpty)
    (hc : c.span = s) (hd : d.span = s) (ho : ∀ e ∈ others, e.span = s)
    (later : ∀ e ∈ rest, (compare s e.span).isLE) (enters : meets kept.head? c = .ok true)
    (h : ∃ next, (c :: d :: others ++ rest).foldlM keep kept = .ok next ∧ next.map place = places)
    (h' : ∃ next, (d :: c :: others ++ rest).foldlM keep kept = .ok next ∧ next.map place = places) :
    c.specificity = d.specificity := by
  have step {c d : Candidate} (hc : c.span = s) (hd : d.span = s)
      (enters : meets kept.head? c = .ok true) :
      (c :: d :: others).foldlM keep kept = .ok ((d :: others).reverse ++ c :: below s kept) := by
    rw [List.foldlM_cons, keep_of_enters enters, ok_bind, hc]
    exact foldlM_keep_of_isEmpty empty hc (List.forall_mem_cons.mpr ⟨hd, ho⟩)
  obtain ⟨next, run, places⟩ := h
  obtain ⟨next', run', places'⟩ := h'
  rw [List.foldlM_append, step hc hd enters, ok_bind] at run
  obtain ⟨top, alone, rfl⟩ :=
    exists_of_foldlM_keep_later empty (List.forall_mem_cons.mpr ⟨hd, ho⟩) hc later run
  rw [List.foldlM_append] at run'
  obtain ⟨stack, first, run'⟩ := bind_eq_ok.mp run'
  cases hm : meets kept.head? d with
  | error fault =>
    rw [List.foldlM_cons, keep_of_tie hm] at first
    cases first
  | ok enters' =>
    cases enters' with
    | true =>
      rw [step hd hc hm] at first
      cases first
      obtain ⟨top', alone', rfl⟩ :=
        exists_of_foldlM_keep_later empty (List.forall_mem_cons.mpr ⟨hc, ho⟩) hd later run'
      cases alone.symm.trans alone'
      rw [← places'] at places
      have exchanged : place d = place c ∧ place c = place d := by simpa using places
      exact congrArg Prod.snd exchanged.right
    | false =>
      rw [List.foldlM_cons, keep_of_dropped hm, ok_bind, List.foldlM_cons, keep_of_enters enters,
        ok_bind, hc, foldlM_keep_of_isEmpty empty hc ho] at first
      cases first
      obtain ⟨top', alone', rfl⟩ := exists_of_foldlM_keep_later empty ho hc later run'
      cases alone.symm.trans alone'
      have lengths := congrArg List.length (places.trans places'.symm)
      simp at lengths

-- Where all orders of candidates with one span are followed by the same places, nothing is disputed.
theorem not_disputed_of_same {places : List (Span × Nat)} (hg : ∀ c ∈ group, c.span = s)
    (later : ∀ c ∈ rest, (compare s c.span).isLE)
    (same : ∀ group' : List Candidate, group'.Perm group →
      ∃ next, (group' ++ rest).foldlM keep kept = .ok next ∧ next.map place = places) :
    ¬ Disputed kept.head? group := by
  intro disputed
  cases disputed with
  | @tie c fault hc tie =>
    obtain ⟨next, run, _⟩ := same _ (List.perm_cons_erase hc).symm
    rw [List.cons_append, List.foldlM_cons, keep_of_tie tie] at run
    cases run
  | @twins c d sub filled equal enters =>
    obtain ⟨others, perm⟩ := exists_perm_of_subperm sub
    obtain ⟨next, run, _⟩ := same _ perm
    have hc := hg c (sub.subset (by simp))
    have hd := hg d (sub.subset (by simp))
    obtain ⟨fault, tie⟩ := (contest_keep (hc ▸ filled) (below c.span kept)).tie hc hd equal.symm
    rw [List.cons_append, List.foldlM_cons, keep_of_enters enters, ok_bind, List.cons_append,
      List.foldlM_cons, tie] at run
    cases run
  | @empty c d hc hd empty ne enters =>
    have distinct : c ≠ d := fun h => ne (congrArg _ h)
    have sub : [c, d].Subperm group :=
      List.subperm_of_subset (by simpa using distinct) (by simp [hc, hd])
    obtain ⟨others, perm⟩ := exists_perm_of_subperm sub
    have ho : ∀ e ∈ others, e.span = s := fun e he => hg e (perm.mem_iff.mp (by simp [he]))
    exact ne (eq_of_exchanged (hg c hc ▸ empty) (hg c hc) (hg d hd) ho later enters (same _ perm)
      (same _ ((List.Perm.swap c d others).trans perm)))

theorem InOrder.outcome_eq_some_iff {places : List (Span × Nat)} (h : InOrder order) :
    outcome order = some places ↔
      ∃ next, order.foldlM keep [] = .ok next ∧ next.map place = places.reverse := by
  rw [outcome, resolveOverlaps_of_sorted h]
  cases order.foldlM keep [] with
  | error => simp [Except.toOption, Functor.map, Except.map]
  | ok next =>
    simp only [Except.ok.injEq, exists_eq_left']
    rw [← List.reverse_eq_iff, ← List.map_reverse]
    simp [Except.toOption, Functor.map, Except.map]

-- Candidates are resolved as in the order of their spans.
theorem outcome_mergeSort (candidates : List Candidate) :
    outcome (candidates.mergeSort fun a b => (compare a.span b.span).isLE) = outcome candidates := by
  unfold outcome resolveOverlaps
  rw [List.mergeSort_of_pairwise (sorted_mergeSort candidates)]

theorem OrderIndependent.not_hides (h : OrderIndependent candidates) (perm : order.Perm candidates)
    (sorted : InOrder order) (returns : (outcome order).isSome) : ¬ Hides order := by
  obtain ⟨places, returned⟩ := Option.isSome_iff_exists.mp returns
  rw [sorted.hides_iff]
  rintro ⟨s, survivors, run, disputed⟩
  have later : ∀ c ∈ behind s order, (compare s c.span).isLE :=
    fun c hc => Span.isLE_of_compare_eq_lt (mem_behind.mp hc).right
  suffices regrouped : ∀ group : List Candidate, group.Perm (withSpan s order) → ∃ next,
      (group ++ behind s order).foldlM keep survivors = .ok next ∧ next.map place = places.reverse from
    not_disputed_of_same (fun c hc => (mem_withSpan.mp hc).right) later regrouped disputed
  intro group perm'
  have spans : (before s order ++ (group ++ behind s order)).map (·.span) = order.map (·.span) := by
    have all : ∀ c ∈ group, c.span = s := fun c hc => (mem_withSpan.mp (perm'.mem_iff.mp hc)).right
    have one : group.map (·.span) = (withSpan s order).map (·.span) := by
      rw [List.map_eq_replicate_iff.mpr all, perm'.length_eq]
      exact (List.map_eq_replicate_iff.mpr fun c hc => (mem_withSpan.mp hc).right).symm
    conv_rhs => rw [← sorted.cut s]
    simp only [List.map_append, one]
  have reordered : (before s order ++ (group ++ behind s order)).Perm candidates := by
    refine List.Perm.trans ?_ perm
    conv_rhs => rw [← sorted.cut s]
    exact (perm'.append_right _).append_left _
  have same := (h _ reordered).trans ((h _ perm).symm.trans returned)
  rw [(sorted.of_map_span spans).outcome_eq_some_iff, List.foldlM_append, run, ok_bind] at same
  exact same

theorem exists_mergeSort (order : List Candidate) :
    ∃ sorted, sorted.Perm order ∧ InOrder sorted ∧ outcome sorted = outcome order :=
  ⟨_, List.mergeSort_perm .., sorted_mergeSort order, outcome_mergeSort order⟩

-- A return in one order in which nothing is disputed is a return of the same places in all of them.
theorem outcome_eq_of_not_hides {places : List (Span × Nat)} (perm : order'.Perm order)
    (sorted : InOrder order) (sorted' : InOrder order') (returned : outcome order = some places)
    (hidden : ¬ Hides order) : outcome order' = some places := by
  rw [sorted.outcome_eq_some_iff] at returned
  obtain ⟨next, run, kept⟩ := returned
  rw [sorted.hides_iff] at hidden
  obtain ⟨next', run', same⟩ := (regrouped_of_perm perm sorted sorted').exists_run rfl hidden run
  rw [sorted'.outcome_eq_some_iff]
  exact ⟨next', run', same.trans kept⟩

-- Where no span is empty, all orders that return keep the same places.
theorem outcome_eq_of_filled {places places' : List (Span × Nat)} (perm : order'.Perm order)
    (filled : ∀ c ∈ order, c.span.isEmpty = false) (sorted : InOrder order) (sorted' : InOrder order')
    (returned : outcome order = some places) (returned' : outcome order' = some places') :
    places' = places := by
  rw [sorted.outcome_eq_some_iff] at returned
  rw [sorted'.outcome_eq_some_iff] at returned'
  obtain ⟨next, run, kept⟩ := returned
  obtain ⟨next', run', kept'⟩ := returned'
  have same := (regrouped_of_perm perm sorted sorted').map_place_eq rfl filled run run'
  rw [kept, kept'] at same
  exact List.reverse_injective same

-- Candidates are resolved alike in every order exactly when no order that returns hides a dispute. Where
-- no span is empty, all orders that return keep the same places, so that only ties are hidden.
theorem orderIndependent_iff (candidates : List Candidate) :
    (OrderIndependent candidates ↔
      ∀ order, order.Perm candidates → InOrder order → (outcome order).isSome → ¬ Hides order) ∧
    ((∀ c ∈ candidates, c.span.isEmpty = false) → ∀ order order' places places',
      order.Perm candidates → order'.Perm candidates → outcome order = some places →
        outcome order' = some places' → places' = places) := by
  have sorted {order : List Candidate} (perm : order.Perm candidates) :
      ∃ sorted, sorted.Perm candidates ∧ InOrder sorted ∧ outcome sorted = outcome order := by
    obtain ⟨sorted, same, inOrder, result⟩ := exists_mergeSort order
    exact ⟨sorted, same.trans perm, inOrder, result⟩
  refine ⟨⟨fun h _ perm sorted => h.not_hides perm sorted, fun settled order perm => ?_⟩, ?_⟩
  case refine_1 =>
    have agree {order order' places} (perm : order.Perm candidates) (perm' : order'.Perm candidates)
        (returned : outcome order = some places) : outcome order' = some places := by
      obtain ⟨list, perm, inOrder, result⟩ := sorted perm
      obtain ⟨list', perm', inOrder', result'⟩ := sorted perm'
      rw [← result] at returned
      rw [← result']
      refine outcome_eq_of_not_hides (perm'.trans perm.symm) inOrder inOrder' returned ?_
      exact settled list perm inOrder (returned ▸ rfl)
    apply Option.ext
    exact fun places => ⟨agree perm (.refl _), agree (.refl _) perm⟩
  case refine_2 =>
    intro filled order order' places places' perm perm' returned returned'
    obtain ⟨list, perm, inOrder, result⟩ := sorted perm
    obtain ⟨list', perm', inOrder', result'⟩ := sorted perm'
    rw [← result] at returned
    rw [← result'] at returned'
    have filled : ∀ c ∈ list, c.span.isEmpty = false := fun c hc => filled c (perm.mem_iff.mp hc)
    exact outcome_eq_of_filled (perm'.trans perm.symm) filled inOrder inOrder' returned returned'

-- A tie of two candidates is hidden where a more specific one with their span was found before them, and
-- told where it was found behind them.
theorem not_orderIndependent_behind :
    let candidate (specificity : Nat) : Candidate :=
      ⟨⟨"8.0.100", .semver (.release 8 0 100)⟩, .ofLength 0 5, 1, specificity, false⟩
    resolveOverlaps [candidate 2, candidate 1, candidate 1] = .ok [candidate 2] ∧
    resolveOverlaps [candidate 1, candidate 1, candidate 2] = .error (.tiedCandidates (.ofLength 0 5)) ∧
    ¬ OrderIndependent [candidate 2, candidate 1, candidate 1] := by
  intro candidate
  have kept : resolveOverlaps [candidate 2, candidate 1, candidate 1] = .ok [candidate 2] :=
    (resolveOverlaps_of_sorted (by decide)).trans rfl
  have refused : resolveOverlaps [candidate 1, candidate 1, candidate 2]
      = .error (.tiedCandidates (.ofLength 0 5)) :=
    (resolveOverlaps_of_sorted (by decide)).trans rfl
  refine ⟨kept, refused, fun independent => ?_⟩
  have same := independent [candidate 1, candidate 1, candidate 2] (@List.perm_append_comm _ [_, _] [_])
  rw [outcome, outcome, kept, refused] at same
  cases same

end Candidate
end Repin
