import Mathlib.Data.List.Nodup
import Repin.Proofs.Patch.Splice
/-!
# Edits one at a time

A patch can be made of edits in any order as long as no two of them overlap, and it can be applied when
each edit lies between characters of the text. Applying it is making its edits one at a time, the last
one first, so that no edit moves what is still to be replaced.
-/
namespace Repin

variable {cs before out : List Char} {edits : List EditSpan}

-- One edit, made in a text.
def EditSpan.spliceInto? (e : EditSpan) (cs : List Char) : Option (List Char) := do
  let (before, _) ← Text.splitAtByte e.span.start cs
  let (_, after) ← Text.splitAtByte e.span.stop cs
  return before ++ (e.text.toList ++ after)

theorem EditSpan.spliceInto?_append {e : EditSpan} {front old back : List Char}
    (hs : e.span.start = Text.byteLength front) (hl : e.span.stop = e.span.start + Text.byteLength old) :
    e.spliceInto? (front ++ (old ++ back)) = some (front ++ (e.text.toList ++ back)) := by
  have first : Text.splitAtByte e.span.start (front ++ (old ++ back)) = some (front, old ++ back) :=
    hs ▸ Text.splitAtByte_append front (old ++ back)
  have last : Text.splitAtByte e.span.stop (front ++ (old ++ back)) = some (front ++ old, back) := by
    rw [hl, hs, ← Text.byteLength_append, ← List.append_assoc]
    exact Text.splitAtByte_append (front ++ old) back
  simp [spliceInto?, first, last]

namespace Splice

-- The edits behind an edit change no offset in front of them, so the edit finds its part where it was.
theorem foldrM_spliceInto? (h : Splice (Text.byteLength before) cs edits out) :
    edits.foldrM EditSpan.spliceInto? (before ++ cs) = some (before ++ out) := by
  generalize ho : Text.byteLength before = offset at h
  induction h generalizing before with
  | done => rfl
  | @edit offset kept old rest out e edits hs hl tail ih =>
    have behind : Text.byteLength (before ++ kept ++ old) = e.span.stop := by
      simp only [Text.byteLength_append]
      omega
    have start : e.span.start = Text.byteLength (before ++ kept) := by
      rw [Text.byteLength_append, ho, hs]
    have others : edits.foldrM EditSpan.spliceInto? (before ++ (kept ++ (old ++ rest)))
        = some (before ++ (kept ++ (old ++ out))) := by
      simpa using ih behind
    have one : e.spliceInto? (before ++ kept ++ (old ++ out))
        = some (before ++ kept ++ (e.text.toList ++ out)) :=
      EditSpan.spliceInto?_append start hl
    rw [List.foldrM_cons, others]
    simpa using one

-- What lies under the spans of spliced edits can be cut out.
theorem exists_slice (h : Splice (Text.byteLength before) cs edits out) :
    ∀ e ∈ edits, ∃ old, Text.slice e.span.start e.span.stop (before ++ cs) = some old := by
  generalize ho : Text.byteLength before = offset at h
  induction h generalizing before with
  | done => simp
  | @edit offset kept old rest out e edits hs hl tail ih =>
    have behind : Text.byteLength (before ++ kept ++ old) = e.span.stop := by
      simp only [Text.byteLength_append]
      omega
    intro f hf
    obtain rfl | hf := List.mem_cons.mp hf
    · refine ⟨old, Text.slice_eq_some_iff.mpr ⟨before ++ kept, rest, by simp, ?_, by omega⟩⟩
      rw [Text.byteLength_append, ho, hs]
    · simpa using ih behind f hf

end Splice

namespace PatchSet

-- No two edits overlap, wherever they stand in the list.
def Apart (edits : List EditSpan) : Prop :=
  edits.Pairwise fun e f => e.span.overlaps f.span = false

-- The edits in the order of the document.
def inOrder (edits : List EditSpan) : List EditSpan :=
  edits.mergeSort fun e f => (compare e.span f.span).isLE

theorem pairwise_inOrder (edits : List EditSpan) :
    (inOrder edits).Pairwise fun e f => (compare e.span f.span).isLE := by
  apply List.pairwise_mergeSort
  case trans => exact fun _ _ _ => Span.isLE_compare_trans
  case total => exact fun e f => Span.isLE_compare_total e.span f.span

-- Edits of one span stay in the order they were given in.
theorem filter_inOrder (edits : List EditSpan) (s : Span) :
    (inOrder edits).filter (·.span = s) = edits.filter (·.span = s) := by
  have same : (edits.filter (·.span = s)).Pairwise fun e f => (compare e.span f.span).isLE := by
    apply List.pairwise_of_forall_mem_list
    intro e he f hf
    have he : e.span = s := by simpa using List.of_mem_filter he
    have hf : f.span = s := by simpa using List.of_mem_filter hf
    rw [he, hf, Span.isLE_compare_iff]
    exact .inr ⟨rfl, Nat.le_refl _⟩
  have kept : (edits.filter (·.span = s)).Sublist (inOrder edits) := by
    apply List.sublist_mergeSort
    case trans => exact fun _ _ _ => Span.isLE_compare_trans
    case total => exact fun e f => Span.isLE_compare_total e.span f.span
    case _ => exact same
    case _ => exact List.filter_sublist
  have length : ((inOrder edits).filter (·.span = s)).length = (edits.filter (·.span = s)).length :=
    ((List.mergeSort_perm ..).filter _).length_eq
  have inside := kept.filter (·.span = s)
  rw [List.filter_filter] at inside
  simp only [Bool.and_self] at inside
  exact (inside.eq_of_length length.symm).symm

theorem apart_iff_of_pairwise (h : edits.Pairwise fun e f => (compare e.span f.span).isLE) :
    Apart edits ↔ edits.Pairwise fun e f => e.span.stop ≤ f.span.start := by
  constructor
  case mp =>
    exact fun apart => (h.and apart).imp fun ⟨le, apart⟩ => (Span.overlaps_eq_false_iff le).mp apart
  case mpr =>
    exact fun order => (h.and order).imp fun ⟨le, order⟩ => (Span.overlaps_eq_false_iff le).mpr order

theorem apart_inOrder_iff : Apart (inOrder edits) ↔ Apart edits :=
  (List.mergeSort_perm ..).pairwise_iff fun h => by rwa [Span.overlaps_comm]

theorem firstOverlap?_eq_none (h : edits.Pairwise fun e f => e.span.stop ≤ f.span.start) :
    firstOverlap? edits = none := by
  induction edits with
  | nil => rfl
  | cons e edits ih =>
    have ⟨later, ordered⟩ := List.pairwise_cons.mp h
    cases edits with
    | nil => rfl
    | cons f edits => simp [firstOverlap?, later f List.mem_cons_self, ih ordered]

-- The neighbours of the sorted edits tell whether any two edits overlap.
theorem ofUnordered_eq_ok_iff {p : PatchSet} :
    ofUnordered edits = .ok p ↔ Apart edits ∧ p.edits = inOrder edits := by
  have order := apart_iff_of_pairwise (pairwise_inOrder edits)
  rw [← apart_inOrder_iff, order]
  unfold ofUnordered
  dsimp only
  split
  case h_1 hn =>
    have sorted : (inOrder edits).Pairwise fun e f => e.span.stop ≤ f.span.start :=
      pairwise_of_firstOverlap? hn
    cases p
    simp only [Except.ok.injEq, mk.injEq, sorted, true_and]
    exact eq_comm
  case h_2 s t hn =>
    simp only [reduceCtorEq, false_iff, not_and]
    intro sorted
    have none : firstOverlap? (inOrder edits) = none := firstOverlap?_eq_none sorted
    cases hn.symm.trans none

theorem exists_ofUnordered_iff : (∃ p, ofUnordered edits = .ok p) ↔ Apart edits := by
  simp only [ofUnordered_eq_ok_iff, exists_and_left]
  refine and_iff_left_of_imp fun apart => ?_
  have order := (apart_iff_of_pairwise (pairwise_inOrder edits)).mp (apart_inOrder_iff.mpr apart)
  exact ⟨⟨inOrder edits, order⟩, rfl⟩

-- Edits that are separate make a patch in the order of the document, in whatever order they are given.
theorem exists_ofUnordered_of_perm {separate : List EditSpan} (perm : edits.Perm separate)
    (h : separate.Pairwise fun e f => e.span.Precedes f.span) :
    ∃ p, ofUnordered edits = .ok p ∧ p.edits = separate := by
  have apart : Apart edits :=
    (perm.pairwise_iff fun h => by rwa [Span.overlaps_comm]).mpr (h.imp Span.Precedes.overlaps_eq)
  obtain ⟨p, hp⟩ := exists_ofUnordered_iff.mpr apart
  have perm := (perm_of_ofUnordered hp).trans perm
  have later {e f : EditSpan} (le : e.span.stop ≤ f.span.start) : e.span.start ≤ f.span.start :=
    Nat.le_trans e.span.start_le_stop le
  have starts : (separate.map (·.span.start)).Nodup := by
    apply List.pairwise_map.mpr
    exact h.imp fun before => Nat.ne_of_lt (Nat.lt_of_le_of_lt (Span.start_le_stop _) before)
  refine ⟨p, hp, perm.eq_of_pairwise ?_ (p.ordered.imp later) (h.imp fun lt => later (Nat.le_of_lt lt))⟩
  intro e f he hf first second
  exact List.inj_on_of_nodup_map starts (perm.mem_iff.mp he) hf (Nat.le_antisymm first second)

theorem exists_apply_iff {p : PatchSet} {text : String} : (∃ out, p.apply text = .ok out) ↔
    ∀ e ∈ p.edits, Text.IsBoundary text.toList e.span.start ∧ Text.IsBoundary text.toList e.span.stop := by
  have cut (e : EditSpan) : (∃ old, Text.slice e.span.start e.span.stop text.toList = some old) ↔
      Text.IsBoundary text.toList e.span.start ∧ Text.IsBoundary text.toList e.span.stop :=
    Text.exists_slice_iff e.span.start_le_stop
  constructor
  case mp =>
    rintro ⟨out, h⟩ e he
    have splice : Splice (Text.byteLength []) text.toList p.edits out.toList := apply_eq_ok_iff.mp h
    exact (cut e).mp (splice.exists_slice e he)
  case mpr =>
    intro inside
    have ⟨out, splice⟩ : ∃ out, Splice 0 text.toList p.edits out :=
      Splice.exists_of_slice p.ordered fun e he => ⟨Nat.zero_le _, (cut e).mpr (inside e he)⟩
    exact ⟨String.ofList out, apply_eq_ok_iff.mpr (by rwa [String.toList_ofList])⟩

-- Whether edits make a patch depends on their spans alone, and whether the patch can be applied on the
-- text besides. What it gives is what its edits give one at a time: all text outside of their spans, with
-- the new texts in between.
theorem made_one_at_a_time (edits : List EditSpan) (text : String) :
    ((∃ fault, ofUnordered edits = .error fault) ↔ ¬ Apart edits) ∧
    ∀ p, ofUnordered edits = .ok p →
      (p.edits.Perm edits ∧ (p.edits.Pairwise fun e f => (compare e.span f.span).isLE) ∧
        ∀ s, p.edits.filter (·.span = s) = edits.filter (·.span = s)) ∧
      ((∃ fault, p.apply text = .error fault) ↔ ∃ e ∈ edits,
        Text.byteLength text.toList < e.span.stop ∨ ¬ Text.IsBoundary text.toList e.span.start ∨
          ¬ Text.IsBoundary text.toList e.span.stop) ∧
      ∀ out, p.apply text = .ok out →
        p.edits.foldrM EditSpan.spliceInto? text.toList = some out.toList ∧
          Splice 0 text.toList p.edits out.toList := by
  refine ⟨by rw [exists_error_iff, exists_ofUnordered_iff], fun p hp => ?_⟩
  have ⟨_, sorted⟩ := ofUnordered_eq_ok_iff.mp hp
  have perm := perm_of_ofUnordered hp
  refine ⟨⟨perm, sorted ▸ pairwise_inOrder edits, fun s => sorted ▸ filter_inOrder edits s⟩, ?_, ?_⟩
  case _ =>
    rw [exists_error_iff, exists_apply_iff]
    simp only [perm.mem_iff, not_forall, exists_prop, not_and_or]
    refine exists_congr fun e => and_congr_right fun _ => (or_iff_right_of_imp ?_).symm
    exact fun past => .inr fun inside => Nat.not_le_of_lt past inside.le
  case _ =>
    intro out h
    have splice : Splice (Text.byteLength []) text.toList p.edits out.toList := apply_eq_ok_iff.mp h
    exact ⟨splice.foldrM_spliceInto?, splice⟩

-- Two insertions behind a replacement that was given last.
theorem made_one_at_a_time_insertions :
    let edits : List EditSpan := [⟨.ofLength 4 0, "x"⟩, ⟨.ofLength 4 0, "y"⟩, ⟨.ofLength 1 3, "z"⟩]
    ∃ p out, ofUnordered edits = .ok p ∧ p.apply "a日b" = .ok out ∧
      p.edits.foldrM EditSpan.spliceInto? "a日b".toList = some out.toList ∧ out = "azxyb" := by
  intro edits
  have apart : Apart edits := by simp [Apart, edits, Span.overlaps, Span.ofLength]
  obtain ⟨p, hp⟩ := exists_ofUnordered_iff.mpr apart
  have sorted : p.edits = [⟨.ofLength 1 3, "z"⟩, ⟨.ofLength 4 0, "x"⟩, ⟨.ofLength 4 0, "y"⟩] := by
    rw [(ofUnordered_eq_ok_iff.mp hp).right]
    simp +decide [edits, inOrder, List.mergeSort]
  have inside : Text.IsBoundary "a日b".toList 1 ∧ Text.IsBoundary "a日b".toList 4 :=
    ⟨⟨['a'], ['日', 'b'], rfl, rfl⟩, ['a', '日'], ['b'], rfl, rfl⟩
  obtain ⟨out, ho⟩ : ∃ out, p.apply "a日b" = .ok out := by
    rw [exists_apply_iff, sorted]
    simpa [Span.ofLength] using inside
  obtain ⟨_, made⟩ := made_one_at_a_time edits "a日b"
  obtain ⟨_, _, result⟩ := made p hp
  obtain ⟨steps, _⟩ := result out ho
  have last : p.edits.foldrM EditSpan.spliceInto? "a日b".toList = some "azxyb".toList := by
    rw [sorted]
    rfl
  exact ⟨p, out, hp, ho, steps, String.toList_inj.mp (Option.some.inj (steps.symm.trans last))⟩

end PatchSet
end Repin
