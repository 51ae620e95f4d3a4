import Mathlib.Data.List.Pairwise
import Mathlib.Data.List.Perm.Subperm
import Repin.Proofs.Locate.Candidate
import Repin.Proofs.Patch.Sequence
/-!
# Candidates without overlaps

Candidates are worked into the survivors in the order of their spans, and each is compared with the last
survivor only. That is enough: whatever becomes of the last survivor, the others end before it starts. So
no two survivors overlap, and edits of any of them can be made.
-/
namespace Repin

namespace Candidate

variable {source : List Char} {sites : List Site} {site : Site} {selection : Selection}
variable {candidates found kept kept' : List Candidate} {c d : Candidate}
variable {select : Site → Except Fault (Option Selection)}

-- The ways in which a candidate meets the survivors, the last of which stands first.
inductive Keeps (c : Candidate) : List Candidate → List Candidate → Prop where
  | first : Keeps c [] [c]
  | apart {last : Candidate} {kept : List Candidate} : last.span.overlaps c.span = false →
    Keeps c (last :: kept) (c :: last :: kept)
  | replaces {last : Candidate} {kept : List Candidate} : last.span.overlaps c.span →
    c.replaces last = .ok true → Keeps c (last :: kept) (c :: kept)
  | drops {last : Candidate} {kept : List Candidate} : last.span.overlaps c.span →
    c.replaces last = .ok false → Keeps c (last :: kept) (last :: kept)

theorem keeps_of_keep (h : keep kept c = .ok kept') : Keeps c kept kept' := by
  cases kept with
  | nil =>
    cases h
    exact .first
  | cons last kept =>
    simp only [keep] at h
    cases ho : last.span.overlaps c.span with
    | false =>
      rw [ho] at h
      cases h
      exact .apart ho
    | true =>
      simp only [ho, Bool.not_true, Bool.false_eq_true, if_false] at h
      obtain ⟨wins, hr, h⟩ := bind_eq_ok.mp h
      cases wins with
      | false =>
        cases h
        exact .drops ho hr
      | true =>
        cases h
        exact .replaces ho hr

-- Survivors that lie one behind the other, the last of them first.
def Stacked (kept : List Candidate) : Prop :=
  kept.Pairwise fun later earlier => earlier.span.stop ≤ later.span.start

namespace Keeps

theorem mem (h : Keeps c kept kept') (hd : d ∈ kept') : d = c ∨ d ∈ kept := by
  cases h with
  | first => exact .inl (List.mem_singleton.mp hd)
  | apart => exact List.mem_cons.mp hd
  | replaces =>
    obtain rfl | hd := List.mem_cons.mp hd
    · exact .inl rfl
    · exact .inr (List.mem_cons_of_mem _ hd)
  | drops => exact .inr hd

-- A candidate that is not before the last survivor starts behind all the others.
theorem stacked (h : Keeps c kept kept') (stacked : Stacked kept)
    (before : ∀ d ∈ kept, (compare d.span c.span).isLE) : Stacked kept' := by
  cases h with
  | first => exact List.pairwise_singleton ..
  | @apart last kept apart =>
    have ⟨others, _⟩ := List.pairwise_cons.mp stacked
    have behind := (Span.overlaps_eq_false_iff (before last List.mem_cons_self)).mp apart
    have order := last.span.start_le_stop
    refine .cons (fun d hd => ?_) stacked
    obtain rfl | hd := List.mem_cons.mp hd
    · exact behind
    · exact Nat.le_trans (others d hd) (Nat.le_trans order behind)
  | @replaces last kept =>
    have ⟨others, stacked⟩ := List.pairwise_cons.mp stacked
    have start := Span.start_le_start (before last List.mem_cons_self)
    exact .cons (fun d hd => Nat.le_trans (others d hd) start) stacked
  | drops => exact stacked

end Keeps

theorem foldlM_keep_stacked (h : candidates.foldlM keep kept = .ok kept') (stacked : Stacked kept)
    (sorted : candidates.Pairwise fun a b => (compare a.span b.span).isLE)
    (before : ∀ d ∈ kept, ∀ c ∈ candidates, (compare d.span c.span).isLE) :
    Stacked kept' ∧ ∀ d ∈ kept', d ∈ kept ∨ d ∈ candidates := by
  induction candidates generalizing kept with
  | nil =>
    cases h
    exact ⟨stacked, fun _ => .inl⟩
  | cons c candidates ih =>
    rw [List.foldlM_cons] at h
    obtain ⟨next, hn, h⟩ := bind_eq_ok.mp h
    have step := keeps_of_keep hn
    have ⟨first, sorted⟩ := List.pairwise_cons.mp sorted
    have further : ∀ d ∈ next, ∀ b ∈ candidates, (compare d.span b.span).isLE := by
      intro d hd b hb
      obtain rfl | hd := step.mem hd
      · exact first b hb
      · exact before d hd b (List.mem_cons_of_mem _ hb)
    have ⟨stacked, members⟩ := ih h
      (step.stacked stacked fun d hd => before d hd c List.mem_cons_self) sorted further
    refine ⟨stacked, fun d hd => ?_⟩
    obtain hd | hd := members d hd
    · obtain rfl | hd := step.mem hd
      · exact .inr List.mem_cons_self
      · exact .inl hd
    · exact .inr (List.mem_cons_of_mem _ hd)

theorem sorted_mergeSort (candidates : List Candidate) :
    (candidates.mergeSort fun a b => (compare a.span b.span).isLE).Pairwise
      fun a b => (compare a.span b.span).isLE := by
  apply List.pairwise_mergeSort
  case trans => exact fun _ _ _ => Span.isLE_compare_trans
  case total => exact fun a b => Span.isLE_compare_total a.span b.span

theorem apart_of_resolveOverlaps (h : resolveOverlaps candidates = .ok kept) :
    (kept.Pairwise fun a b => a.span.stop ≤ b.span.start) ∧ ∀ c ∈ kept, c ∈ candidates := by
  unfold resolveOverlaps at h
  obtain ⟨survivors, hs, h⟩ := bind_eq_ok.mp h
  cases h
  have ⟨stacked, members⟩ := foldlM_keep_stacked hs .nil (sorted_mergeSort candidates) (by simp)
  refine ⟨List.pairwise_reverse.mpr stacked, fun c hc => ?_⟩
  obtain hc | hc := members c (List.mem_reverse.mp hc)
  · cases hc
  · exact List.mem_mergeSort.mp hc

-- A candidate of a selected site: its token is read from the text under its span, which is the site or
-- the part of it that was selected.
structure IsOf (source : List Char) (site : Site) (selection : Selection) (c : Candidate) : Prop where
  patchable : site.patchable
  span : match selection.range with
    | none => c.span = site.span
    | some (start, stop) => site.span.narrow start stop = .ok c.span
  raw : Text.slice c.span.start c.span.stop source = some c.token.raw.toList
  token : Token.parse c.token.raw selection.kind = .ok c.token
  line : c.line = (Text.position source c.span.start).line
  specificity : c.specificity = selection.specificity
  block : c.block = site.block

theorem isOf_of_ofSite? (h : ofSite? source selection site = .ok (some c)) :
    c.IsOf source site selection := by
  unfold ofSite? at h
  split at h
  case isTrue => cases h
  case isFalse patchable =>
    dsimp only at h
    split at h
    all_goals
      rename_i range
      obtain ⟨span, hs, h⟩ := bind_eq_ok.mp h
      split at h
      case h_1 => cases h
      case h_2 text slice =>
        split at h
        case h_1 token ht =>
          cases h
          obtain ⟨value, _, rfl⟩ := map_eq_ok.mp ht
          refine ⟨by simpa using patchable, ?_, ?_, ht, rfl, rfl, rfl⟩
          case _ =>
            rw [range]
            first | exact hs | exact (Except.ok.inj hs).symm
          case _ => rw [String.toList_ofList, slice]
        case h_2 => cases h
        case h_3 => cases h

theorem exists_of_mem_collect (h : collect source select sites = .ok found) (hc : c ∈ found) :
    ∃ site ∈ sites, ∃ selection, select site = .ok (some selection) ∧ c.IsOf source site selection := by
  induction sites generalizing found with
  | nil =>
    cases h
    cases hc
  | cons site sites ih =>
    have later {found} (h : collect source select sites = .ok found) (hc : c ∈ found) :
        ∃ s ∈ site :: sites, ∃ selection, select s = .ok (some selection) ∧ c.IsOf source s selection := by
      have ⟨s, hs, found⟩ := ih h hc
      exact ⟨s, List.mem_cons_of_mem _ hs, found⟩
    unfold collect at h
    obtain ⟨selected, hs, h⟩ := bind_eq_ok.mp h
    cases selected with
    | none => exact later h hc
    | some selection =>
      obtain ⟨here, ho, h⟩ := bind_eq_ok.mp h
      cases here with
      | none => exact later h hc
      | some candidate =>
        obtain ⟨others, hr, h⟩ := bind_eq_ok.mp h
        cases h
        obtain rfl | hc := List.mem_cons.mp hc
        · exact ⟨site, List.mem_cons_self, selection, hs, isOf_of_ofSite? ho⟩
        · exact later hr hc

-- The empty text is in no grammar.
theorem IsOf.span_isEmpty (h : IsOf source site selection c) : c.span.isEmpty = false := by
  have refused (kind : TokenKind) (token : Token) : Token.parse "" kind ≠ .ok token := by
    cases kind <;> exact nofun
  refine Bool.eq_false_iff.mpr fun empty => refused selection.kind c.token ?_
  have ⟨_, _, _, _, bounds⟩ := Text.slice_eq_some_iff.mp h.raw
  have none : c.token.raw.toList = [] := by
    rw [Span.isEmpty, beq_iff_eq] at empty
    exact Text.byteLength_eq_zero_iff.mp (by omega)
  exact String.toList_eq_nil_iff.mp none ▸ h.token

-- Two candidates of a document share no part of it.
theorem apart_of_find {text : String} (h : find text sites select = .ok found) (hc : c ∈ found)
    (hd : d ∈ found) (ne : c ≠ d) : c.span ≠ d.span ∧ c.span.overlaps d.span = false := by
  have ⟨all, collected, resolved⟩ := bind_eq_ok.mp h
  have ⟨order, kept⟩ := apart_of_resolveOverlaps resolved
  have apart : found.Pairwise fun a b => a.span.overlaps b.span = false :=
    order.imp fun behind =>
      (Span.overlaps_eq_false_iff (Span.isLE_compare_of_stop_le behind)).mpr behind
  have : Std.Symm fun a b : Candidate => a.span.overlaps b.span = false :=
    ⟨fun a b => (Span.overlaps_comm a.span b.span).symm.trans⟩
  have clear := apart.forall hc hd ne
  refine ⟨fun same => ?_, clear⟩
  have ⟨_, _, _, _, isOf⟩ := exists_of_mem_collect collected (kept d hd)
  rw [same, Span.overlaps_self, isOf.span_isEmpty] at clear
  cases clear

-- Edits of some of the candidates, in any order, make a patch that can be applied.
theorem exists_apply_of_subperm {text : String} {edits : List EditSpan}
    (apart : found.Pairwise fun a b => a.span.overlaps b.span = false)
    (slices : ∀ c ∈ found, ∃ part, Text.slice c.span.start c.span.stop text.toList = some part)
    (chosen : (edits.map (·.span)).Subperm (found.map (·.span))) :
    ∃ p out, PatchSet.ofUnordered edits = .ok p ∧ p.apply text = .ok out := by
  have ⟨spans, perm, sublist⟩ := chosen
  have disjoint : (edits.map (·.span)).Pairwise fun s t => s.overlaps t = false := by
    rw [← perm.pairwise_iff fun h => by rwa [Span.overlaps_comm]]
    exact (List.pairwise_map.mpr apart).sublist sublist
  obtain ⟨p, hp⟩ := PatchSet.exists_ofUnordered_iff.mpr (List.pairwise_map.mp disjoint)
  have inside : ∀ e ∈ p.edits,
      Text.IsBoundary text.toList e.span.start ∧ Text.IsBoundary text.toList e.span.stop := by
    intro e he
    have he := List.mem_map_of_mem (f := (·.span)) ((PatchSet.perm_of_ofUnordered hp).mem_iff.mp he)
    obtain ⟨c, hc, same⟩ := List.mem_map.mp (chosen.subset he)
    rw [← Text.exists_slice_iff e.span.start_le_stop, ← same]
    exact slices c hc
  obtain ⟨out, ho⟩ := PatchSet.exists_apply_iff.mpr inside
  exact ⟨p, out, hp, ho⟩

-- The candidates of a document, whatever its sites and the predicate are. Edits of some of them, in any
-- order and with any texts, make a patch that can be applied.
theorem find_patchable {text : String} (h : find text sites select = .ok found) :
    (found.Pairwise fun a b => (compare a.span b.span).isLE ∧ a.span.overlaps b.span = false) ∧
    (∀ c ∈ found, ∃ site ∈ sites, ∃ selection, select site = .ok (some selection) ∧
      c.IsOf text.toList site selection) ∧
    (∀ c ∈ found, c.span.stop ≤ Text.byteLength text.toList ∧
      Text.IsBoundary text.toList c.span.start ∧ Text.IsBoundary text.toList c.span.stop ∧
      Text.slice c.span.start c.span.stop text.toList = some c.token.raw.toList) ∧
    ∀ edits : List EditSpan, (edits.map (·.span)).Subperm (found.map (·.span)) →
      ∃ p out, PatchSet.ofUnordered edits = .ok p ∧ p.apply text = .ok out := by
  obtain ⟨all, collected, resolved⟩ := bind_eq_ok.mp h
  have ⟨order, kept⟩ := apart_of_resolveOverlaps resolved
  have sorted : found.Pairwise fun a b =>
      (compare a.span b.span).isLE ∧ a.span.overlaps b.span = false := by
    apply order.imp
    intro a b behind
    have le := Span.isLE_compare_of_stop_le behind
    exact ⟨le, (Span.overlaps_eq_false_iff le).mpr behind⟩
  have sites : ∀ c ∈ found, ∃ site ∈ sites, ∃ selection, select site = .ok (some selection) ∧
      c.IsOf text.toList site selection :=
    fun c hc => exists_of_mem_collect collected (kept c hc)
  have slices : ∀ c ∈ found, Text.slice c.span.start c.span.stop text.toList
      = some c.token.raw.toList := by
    intro c hc
    have ⟨_, _, _, _, isOf⟩ := sites c hc
    exact isOf.raw
  refine ⟨sorted, sites, fun c hc => ?_, fun edits chosen => ?_⟩
  case _ =>
    have ⟨_, last⟩ := Text.le_of_slice (slices c hc)
    have ⟨start, stop⟩ := (Text.exists_slice_iff c.span.start_le_stop).mp ⟨_, slices c hc⟩
    exact ⟨last, start, stop, slices c hc⟩
  case _ =>
    exact exists_apply_of_subperm (sorted.imp And.right) (fun c hc => ⟨_, slices c hc⟩) chosen

-- Of a value and two parts of it the parts are kept, and edits of both of them can be made.
theorem find_patchable_nested :
    let site (start length : Nat) : Site := ⟨[], "", .ofLength start length, false, true⟩
    let edits : List EditSpan := [⟨.ofLength 7 6, "net9.0"⟩, ⟨.ofLength 0 6, ""⟩]
    ∃ found, find "net6.0;net8.0" [site 0 13, site 7 6, site 0 6]
        (fun _ => .ok (some { kind := .frameworkMoniker })) = .ok found ∧
      found.map (·.span) = [.ofLength 0 6, .ofLength 7 6] ∧
      ∃ p out, PatchSet.ofUnordered edits = .ok p ∧ p.apply "net6.0;net8.0" = .ok out := by
  intro site edits
  let select : Site → Except Fault (Option Selection) :=
    fun _ => .ok (some { kind := .frameworkMoniker })
  have read : (collect "net6.0;net8.0".toList select [site 0 13, site 7 6, site 0 6]).toOption.map
      (·.map fun c => (c.span, c.specificity))
        = some [(.ofLength 0 13, 1), (.ofLength 7 6, 1), (.ofLength 0 6, 1)] := by
    decide +kernel
  obtain ⟨all, ha, spans⟩ := Option.map_eq_some_iff.mp read
  have three : all.length = 3 := by simpa using congrArg List.length spans
  obtain ⟨whole, second, first, rfl⟩ := List.length_eq_three.mp three
  simp only [List.map_cons, List.map_nil, List.cons.injEq, Prod.mk.injEq] at spans
  obtain ⟨⟨hw, hw'⟩, ⟨hs, hs'⟩, ⟨hf, hf'⟩, -⟩ := spans
  have resolved : resolveOverlaps [whole, second, first] = .ok [first, second] := by
    simp +decide [resolveOverlaps, List.mergeSort, keep, replaces, hw, hw', hs, hs', hf, hf']
  have found : find "net6.0;net8.0" [site 0 13, site 7 6, site 0 6] select = .ok [first, second] := by
    refine bind_eq_ok.mpr ⟨_, ?_, resolved⟩
    cases hc : collect "net6.0;net8.0".toList select [site 0 13, site 7 6, site 0 6] with
    | error fault =>
      rw [hc] at ha
      cases ha
    | ok all =>
      rw [hc] at ha
      exact congrArg Except.ok (Option.some.inj ha)
  obtain ⟨_, _, _, edited⟩ := find_patchable found
  refine ⟨[first, second], found, by simp [hf, hs], edited edits ?_⟩
  simp only [edits, List.map_cons, List.map_nil, hf, hs]
  exact (List.Perm.swap ..).subperm

end Candidate
end Repin
