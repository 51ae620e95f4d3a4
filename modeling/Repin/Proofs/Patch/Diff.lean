import Mathlib.Data.List.DropRight
import Repin.Proofs.Patch.Hunk
import Repin.Proofs.Patch.Sequence
import Repin.Proofs.Text.Position
/-!
# What a diff shows

The hunks of a diff replace lines of the document by lines of the result, and leave all other lines.
Each step behind a hunk starts at the line feed that ends its last line, where both texts start a line
again. Main statement: `PatchSet.diff_shows_lines`.
-/
namespace Repin

namespace Text

variable {cs before after line returns : List Char}

-- A line without the carriage returns at its end.
def withoutReturns (line : List Char) : List Char :=
  line.rdropWhile (· = '\r')

-- The lines of a text, without their terminators.
def shownLines (cs : List Char) : List (List Char) :=
  (splitAt '\n' cs).map withoutReturns

theorem withoutReturns_append (line : List Char) (h : ∀ c ∈ returns, c = '\r') :
    withoutReturns (line ++ returns) = withoutReturns line := by
  have dropped : ∀ c ∈ returns.reverse, decide (c = '\r') := by simpa using h
  rw [withoutReturns, List.rdropWhile, List.reverse_append, List.dropWhile_append_of_pos dropped]
  rfl

theorem withoutReturns_stripLast (line : List Char) :
    withoutReturns (stripLast '\r' line) = withoutReturns line := by
  have ⟨returns, whole, ofReturns⟩ := exists_append_stripLast '\r' line
  rw [← withoutReturns_append _ ofReturns, ← whole]

theorem shownLines_append_newline (before after : List Char) :
    shownLines (before ++ '\n' :: after) = shownLines before ++ shownLines after := by
  simp only [shownLines, splitAt_append, List.map_append]

theorem length_shownLines (cs : List Char) : (shownLines cs).length = cs.count '\n' + 1 := by
  rw [shownLines, List.length_map, length_splitAt]

-- A text that ends a line keeps its lines in front of any other.
theorem EndsLine.exists_shownLines (h : EndsLine before) : ∃ ls, ls.length = before.count '\n' ∧
    ∀ after, shownLines (before ++ after) = ls ++ shownLines after := by
  obtain rfl | ⟨front, rfl⟩ := h
  · exact ⟨[], rfl, fun _ => rfl⟩
  · refine ⟨shownLines front, by simp [length_shownLines], fun after => ?_⟩
    rw [List.append_assoc, List.singleton_append, shownLines_append_newline]

theorem shownLines_append_returns (cs : List Char) (h : ∀ c ∈ returns, c = '\r') :
    shownLines (cs ++ returns) = shownLines cs := by
  obtain ⟨above, whole, ends, outside⟩ := exists_endsLine cs
  obtain ⟨ls, _, front⟩ := ends.exists_shownLines
  have inside : '\n' ∉ lastLine cs ++ returns := by
    intro hm
    exact (List.mem_append.mp hm).elim outside fun hr => absurd (h _ hr) (by decide)
  rw [whole, List.append_assoc, front, front, shownLines, shownLines, splitAt_eq_singleton inside,
    splitAt_eq_singleton outside, List.map_singleton, List.map_singleton, withoutReturns_append _ h]

-- A line that goes on behind a text of whole lines without their end.
theorem StartsEnd.shownLines_append (h : StartsEnd after) (before : List Char) :
    shownLines (before ++ after) = shownLines before ++ (shownLines after).drop 1 := by
  rcases h.cases with returns | ⟨line, below, rfl, returns⟩
  case inl =>
    have single : '\n' ∉ after := fun hn => absurd (returns _ hn) (by decide)
    rw [shownLines_append_returns _ returns, shownLines.eq_1 after, splitAt_eq_singleton single]
    simp
  case inr =>
    have single : '\n' ∉ line := fun hn => absurd (returns _ hn) (by decide)
    rw [← List.append_assoc, shownLines_append_newline, shownLines_append_returns _ returns,
      shownLines_append_newline, shownLines.eq_1 line, splitAt_eq_singleton single]
    simp

-- The lines behind the first ones, where those of a part in the middle stand.
theorem EndsLine.exists_drop_shownLines {n : Nat} (h : EndsLine before)
    (hn : n ≤ before.count '\n') : ∃ ls, ls.length + n = before.count '\n' ∧
      ∀ {text after}, StartsEnd after → (shownLines (before ++ (text ++ after))).drop n
        = ls ++ (shownLines text ++ (shownLines after).drop 1) := by
  obtain ⟨ls, length, shown⟩ := h.exists_shownLines
  refine ⟨ls.drop n, by rw [List.length_drop]; omega, fun starts => ?_⟩
  rw [shown, List.drop_append_of_le_length (by omega), starts.shownLines_append]

end Text

-- A hunk as it is printed: the numbers of its first lines, and its lines before and after.
structure PrintedHunk where
  oldFirst : Nat
  old : List (List Char)
  newFirst : Nat
  new : List (List Char)
  old_ne_nil : old ≠ []
  new_ne_nil : new ≠ []

namespace PrintedHunk

def text (h : PrintedHunk) : List Char :=
  ("@@ -" ++ toString h.oldFirst ++ "," ++ toString h.old.length ++ " +" ++ toString h.newFirst ++ ","
    ++ toString h.new.length ++ " @@\n").toList ++ Hunk.signed '-' h.old ++ Hunk.signed '+' h.new

-- The lines of a document with those of one hunk replaced.
def replaceIn (h : PrintedHunk) (lines : List (List Char)) : List (List Char) :=
  lines.take (h.oldFirst - 1) ++ (h.new.map Text.withoutReturns
    ++ lines.drop (h.oldFirst - 1 + h.old.length))

-- The first hunk stands in front of the second one, before and after.
def Precedes (h k : PrintedHunk) : Prop :=
  h.oldFirst + h.old.length ≤ k.oldFirst ∧ h.newFirst + h.new.length ≤ k.newFirst

end PrintedHunk

-- What hunks say of the lines of two texts. Every hunk shows the lines that stand under its numbers.
structure ShowsChange (old new : List (List Char)) (hunks : List PrintedHunk) : Prop where
  positive : ∀ h ∈ hunks, 1 ≤ h.oldFirst ∧ 1 ≤ h.newFirst
  removed : ∀ h ∈ hunks,
    (old.drop (h.oldFirst - 1)).take h.old.length = h.old.map Text.withoutReturns
  added : ∀ h ∈ hunks,
    (new.drop (h.newFirst - 1)).take h.new.length = h.new.map Text.withoutReturns
  ordered : hunks.Pairwise PrintedHunk.Precedes
  replaced : hunks.foldr PrintedHunk.replaceIn old = new

-- Lines from given line numbers on, and the lines after the hunks: the lines of a hunk stand under its
-- numbers, its new lines replace its old ones, and outside of the hunks all stays.
inductive LineSplice : Nat → Nat → List (List Char) → List PrintedHunk → List (List Char) → Prop where
  | done {a b : Nat} {lines : List (List Char)} : LineSplice a b lines [] lines
  | hunk {a b : Nat} {kept rest out : List (List Char)} {h : PrintedHunk} {hunks : List PrintedHunk} :
    h.oldFirst = a + kept.length → h.newFirst = b + kept.length →
      LineSplice (h.oldFirst + h.old.length) (h.newFirst + h.new.length) rest hunks out →
        LineSplice a b (kept ++ (h.old.map Text.withoutReturns ++ rest)) (h :: hunks)
          (kept ++ (h.new.map Text.withoutReturns ++ out))

namespace LineSplice

variable {a b : Nat} {lines out : List (List Char)} {hunks : List PrintedHunk}

theorem le_of_mem (h : LineSplice a b lines hunks out) :
    ∀ k ∈ hunks, a ≤ k.oldFirst ∧ b ≤ k.newFirst := by
  induction h with
  | done => simp
  | @hunk a b kept rest out h hunks old new tail ih =>
    refine List.forall_mem_cons.mpr ⟨by omega, fun k hk => ?_⟩
    have := ih k hk
    omega

theorem pairwise (h : LineSplice a b lines hunks out) : hunks.Pairwise PrintedHunk.Precedes := by
  induction h with
  | done => exact .nil
  | hunk _ _ tail ih => exact .cons tail.le_of_mem ih

-- Every hunk shows the lines that stand under its numbers, before and after.
theorem shows (front front' : List (List Char)) (h : LineSplice a b lines hunks out)
    (ha : front.length + 1 = a) (hb : front'.length + 1 = b) : ∀ k ∈ hunks,
      ((front ++ lines).drop (k.oldFirst - 1)).take k.old.length = k.old.map Text.withoutReturns ∧
      ((front' ++ out).drop (k.newFirst - 1)).take k.new.length = k.new.map Text.withoutReturns := by
  induction h generalizing front front' with
  | done => simp
  | @hunk a b kept rest out h hunks old new tail ih =>
    have place (front kept : List (List Char)) (n : Nat) (hn : n = front.length + 1 + kept.length) :
        n - 1 = (front ++ kept).length := by
      rw [List.length_append]
      omega
    refine List.forall_mem_cons.mpr ⟨⟨?old, ?new⟩, ?tail⟩
    case old =>
      rw [place front kept h.oldFirst (by omega), ← List.append_assoc, List.drop_left,
        List.take_left' (by simp)]
    case new =>
      rw [place front' kept h.newFirst (by omega), ← List.append_assoc, List.drop_left,
        List.take_left' (by simp)]
    case tail =>
      have := ih (front ++ (kept ++ h.old.map Text.withoutReturns))
        (front' ++ (kept ++ h.new.map Text.withoutReturns)) (by simp; omega) (by simp; omega)
      simpa only [List.append_assoc] using this

-- Replacing the lines of the hunks, the last one first, leads to the lines after them.
theorem foldr_replaceIn (front : List (List Char)) (h : LineSplice a b lines hunks out)
    (ha : front.length + 1 = a) : hunks.foldr PrintedHunk.replaceIn (front ++ lines) = front ++ out := by
  induction h generalizing front with
  | done => rfl
  | @hunk a b kept rest out h hunks old new tail ih =>
    have behind := ih (front ++ (kept ++ h.old.map Text.withoutReturns)) (by simp; omega)
    have first : h.oldFirst - 1 = (front ++ kept).length := by
      rw [List.length_append]
      omega
    have last : (front ++ kept).length + h.old.length
        = (front ++ kept ++ h.old.map Text.withoutReturns).length := by
      rw [@List.length_append _ (front ++ kept), List.length_map]
    simp only [List.append_assoc] at behind
    rw [List.foldr_cons, behind, PrintedHunk.replaceIn, first, last, ← List.append_assoc front,
      List.take_left, ← List.append_assoc (front ++ kept) (h.old.map Text.withoutReturns), List.drop_left,
      List.append_assoc]

theorem showsChange (h : LineSplice 1 1 lines hunks out) : ShowsChange lines out hunks where
  positive := h.le_of_mem
  removed := fun k hk => (h.shows [] [] rfl rfl k hk).left
  added := fun k hk => (h.shows [] [] rfl rfl k hk).right
  ordered := h.pairwise
  replaced := h.foldr_replaceIn [] rfl

end LineSplice

namespace Hunk

variable {document before cs out old back : List Char} {edits : List EditSpan} {hunks : List Hunk}

theorem map_withoutReturns_displayLines (cs : List Char) :
    (displayLines cs).map Text.withoutReturns = Text.shownLines cs := by
  rw [displayLines, Text.shownLines, List.map_map]
  exact List.map_congr_left fun line _ => Text.withoutReturns_stripLast line

theorem length_displayLines (cs : List Char) : (displayLines cs).length = cs.count '\n' + 1 := by
  rw [displayLines, List.length_map, Text.length_splitAt]

theorem displayLines_ne_nil (cs : List Char) : displayLines cs ≠ [] :=
  mt List.map_eq_nil_iff.mp (Text.splitOn_ne_nil _ cs)

-- The hunk that shows lines under given numbers.
def printed (oldFirst newFirst : Nat) (old new : List Char) : PrintedHunk :=
  ⟨oldFirst, displayLines old, newFirst, displayLines new, displayLines_ne_nil old,
    displayLines_ne_nil new⟩

-- The lines under a hunk after its edits are those lines with the edits made.
theorem newTextFrom_eq_ok {stop : Nat} (h : Splice (Text.byteLength before) cs edits out)
    (hd : document = before ++ (cs ++ back)) (hl : stop = Text.byteLength before + Text.byteLength cs) :
    newTextFrom document stop (Text.byteLength before) edits = .ok out := by
  generalize ho : Text.byteLength before = offset at h
  induction h generalizing before with
  | done =>
    apply PatchSet.copy_eq_ok_iff.mpr
    exact Text.slice_eq_some_iff.mpr ⟨before, back, hd, ho, by omega⟩
  | @edit offset kept old rest out e edits hs hl' tail ih =>
    simp only [Text.byteLength_append] at hl
    have copied : PatchSet.copy document offset e.span.start = .ok kept := by
      apply PatchSet.copy_eq_ok_iff.mpr
      refine Text.slice_eq_some_iff.mpr ⟨before, old ++ (rest ++ back), ?_, ho, by omega⟩
      simp only [hd, List.append_assoc]
    have cursor : Text.byteLength (before ++ (kept ++ old)) = e.span.stop := by
      simp only [Text.byteLength_append]
      omega
    have whole : document = before ++ (kept ++ old) ++ (rest ++ back) := by
      simp only [hd, List.append_assoc]
    have behind := ih whole (by omega) cursor
    rw [newTextFrom, copied, behind]
    simp [pure, Except.pure, bind, Except.bind]

theorem render_eq_ok {h : Hunk} {new : List Char} (shift : Int)
    (hd : document = before ++ (old ++ back)) (hs : h.start = Text.byteLength before)
    (hl : h.stop = h.start + Text.byteLength old) (hn : Splice h.start old h.edits new) :
    render document shift h = .ok
      ((printed (before.count '\n' + 1) ((before.count '\n' + 1 : Nat) + shift).toNat old new).text,
        (displayLines new).length - (displayLines old).length) := by
  rw [hs] at hn
  have copied : PatchSet.copy document h.start h.stop = .ok old :=
    PatchSet.copy_eq_ok_iff.mpr (Text.slice_eq_some_iff.mpr ⟨before, back, hd, hs.symm, by omega⟩)
  have made : h.newText document = .ok new := by
    rw [newText, hs]
    exact newTextFrom_eq_ok hn hd (by omega)
  have number : lineNumber document h.start = before.count '\n' + 1 := by
    rw [lineNumber, hd, hs, Text.line_position]
  rw [render, copied, made, number]
  simp [PrintedHunk.text, printed, pure, Except.pure, bind, Except.bind]

-- The edits of the first hunk make its new lines, and the other edits are made behind it.
theorem exists_render {h : Hunk} {front back : List Char} (shift : Int) (hd : document = front ++ back)
    (hh : h.Holds document) (behind : Text.byteLength front ≤ h.start)
    (rest : ∀ e ∈ edits, h.stop ≤ e.span.start)
    (splice : Splice (Text.byteLength front) back (h.edits ++ edits) out) :
    ∃ kept old new back' out', back = kept ++ (old ++ back') ∧ out = kept ++ (new ++ out') ∧
      Text.byteLength (front ++ kept) = h.start ∧ Text.byteLength (front ++ kept ++ old) = h.stop ∧
      Text.EndsLine kept ∧ Text.StartsEnd back' ∧ Splice h.stop back' edits out' ∧
      render document shift h = .ok
        ((printed ((front ++ kept).count '\n' + 1) (((front ++ kept).count '\n' + 1 : Nat) + shift).toNat
            old new).text,
          (displayLines new).length - (displayLines old).length) := by
  subst hd
  obtain ⟨kept, old, back, rfl, start, stop, ends, starts⟩ := hh.exists_cut behind
  have order := hh.start_le_stop
  have offset := start
  rw [Text.byteLength_append] at offset
  have first : ∀ e ∈ h.edits ++ edits, Text.byteLength front + Text.byteLength kept ≤ e.span.start :=
    List.forall_mem_append.mpr ⟨fun e he => offset ▸ (hh.inside e he).left,
      fun e he => by have := rest e he; omega⟩
  obtain ⟨out', rfl, behindKept⟩ := splice.kept_append first
  obtain ⟨new, out'', rfl, made, tail⟩ := behindKept.split
    (fun e he => by have := hh.inside e he; omega) fun e he => by have := rest e he; omega
  rw [← offset] at made tail
  rw [← stop] at tail
  refine ⟨kept, old, new, back, out'', rfl, rfl, start.symm, ?_, ends.of_append, starts, tail,
    render_eq_ok shift (List.append_assoc ..).symm start stop made⟩
  rw [Text.byteLength_append, ← start, stop]

-- A line feed stands between the end of a hunk and the start of a later one.
theorem Holds.one_le_count {h : Hunk} {front back kept rest : List Char}
    (hh : h.Holds document) (hd : document = front ++ back) (lt : Text.byteLength front < h.start)
    (hb : back = kept ++ rest) (start : Text.byteLength (front ++ kept) = h.start) :
    1 ≤ kept.count '\n' := by
  have opens := hh.opens
  rw [hd] at opens
  obtain ⟨between, rest', parts, feed, length⟩ := opens.exists_of_lt lt
  rw [Text.byteLength_append] at start
  obtain ⟨rfl, _⟩ := Text.append_inj_of_byteLength (parts.symm.trans hb) (by omega)
  exact List.one_le_count_iff.mpr feed

-- Hunks behind a place are printed with the lines that they replace. The first lines behind the place are
-- left out: none at the start of the document, one at the end of the last line of a hunk. The numbers of
-- the new lines are ahead of those of the old ones by the growth of the hunks before.
theorem exists_renderAll {front back : List Char} {n a b : Nat} {shift : Int}
    (hd : document = front ++ back) (holds : ∀ h ∈ hunks, h.Holds document)
    (apart : hunks.Pairwise fun h k => h.stop < k.start)
    (behind : ∀ h ∈ hunks, Text.byteLength front ≤ h.start)
    (skip : ∀ h ∈ hunks, ∀ kept rest, back = kept ++ rest → Text.byteLength (front ++ kept) = h.start →
      n ≤ kept.count '\n')
    (splice : Splice (Text.byteLength front) back (hunks.flatMap (·.edits)) out)
    (ha : a = front.count '\n' + 1 + n) (hb : (b : Int) = a + shift) :
    ∃ printed, renderAll document shift hunks = .ok (printed.flatMap PrintedHunk.text) ∧
      printed.length = hunks.length ∧
      (0 < n → out.takeWhile (· ≠ '\n') = back.takeWhile (· ≠ '\n')) ∧
      LineSplice a b ((Text.shownLines back).drop n) printed ((Text.shownLines out).drop n) := by
  induction hunks generalizing front back out n a b shift with
  | nil =>
    rw [splice.eq_of_nil]
    exact ⟨[], rfl, rfl, fun _ => rfl, .done⟩
  | cons h hunks ih =>
    have ⟨hh, holds⟩ := List.forall_mem_cons.mp holds
    have ⟨apart, later⟩ := List.pairwise_cons.mp apart
    have rest : ∀ e ∈ hunks.flatMap (·.edits), h.stop ≤ e.span.start := by
      intro e he
      obtain ⟨k, hk, he⟩ := List.mem_flatMap.mp he
      exact Nat.le_trans (Nat.le_of_lt (apart k hk)) ((holds k hk).inside e he).left
    obtain ⟨kept, old, new, back', out', rfl, rfl, start, stop, ends, starts, tail, rendered⟩ :=
      exists_render shift hd hh (behind h List.mem_cons_self) rest splice
    have skipped := skip h List.mem_cons_self kept _ rfl start
    have whole : document = front ++ kept ++ old ++ back' := by simp only [hd, List.append_assoc]
    obtain ⟨ls, length, cut⟩ := ends.exists_drop_shownLines skipped
    have oldFirst : (front ++ kept).count '\n' + 1 = a + ls.length := by
      rw [List.count_append]
      omega
    have newFirst : (((front ++ kept).count '\n' + 1 : Nat) + shift).toNat = b + ls.length := by
      omega
    have oldLines := length_displayLines old
    have nextFirst : a + ls.length + (displayLines old).length
        = (front ++ kept ++ old).count '\n' + 1 + 1 := by
      have whole := @List.count_append _ _ '\n' (front ++ kept) old
      omega
    have shift' : ((b + ls.length + (displayLines new).length : Nat) : Int)
        = (a + ls.length + (displayLines old).length : Nat)
          + (shift + ((displayLines new).length - (displayLines old).length)) := by
      omega
    obtain ⟨others, rendered', length', same, lines⟩ := ih whole holds later
      (fun k hk => stop ▸ Nat.le_of_lt (apart k hk))
      (fun k hk _ _ => (holds k hk).one_le_count whole (stop ▸ apart k hk)) (stop ▸ tail) nextFirst shift'
    rw [newFirst, oldFirst] at rendered
    have ends' : Text.StartsEnd out' := by
      rw [Text.StartsEnd, same Nat.one_pos]
      exact starts
    let first := printed (a + ls.length) (b + ls.length) old new
    refine ⟨first :: others, ?text, by simp [length'], ?same, ?lines⟩
    case text =>
      rw [renderAll, rendered, ok_bind]
      dsimp only
      rw [rendered']
      rfl
    case same =>
      intro pos
      have feed : '\n' ∈ kept := List.one_le_count_iff.mp (by omega)
      rw [Text.takeWhile_ne_append feed, Text.takeWhile_ne_append feed]
    case lines =>
      rw [cut starts, cut ends', ← map_withoutReturns_displayLines old,
        ← map_withoutReturns_displayLines new]
      exact LineSplice.hunk (h := first) rfl rfl lines

end Hunk

namespace PatchSet

-- A diff is made of hunks that show how the lines of the text become those of the patched text.
theorem diff_shows_lines (p : PatchSet) (path text : String) (some : p.hasEdits)
    (inside : ∀ e ∈ p.edits, Text.IsBoundary text.toList e.span.start ∧
      Text.IsBoundary text.toList e.span.stop) :
    ∃ result hunks, p.apply text = .ok result ∧ hunks ≠ [] ∧
      p.diff path text = .ok ("--- a/" ++ path ++ "\n+++ b/" ++ path ++ "\n"
        ++ String.ofList (hunks.flatMap PrintedHunk.text)) ∧
      ShowsChange (Text.shownLines text.toList) (Text.shownLines result.toList) hunks := by
  obtain ⟨result, applied⟩ := exists_apply_iff.mpr inside
  obtain ⟨hunks, grouped, holds, all, apart⟩ := Hunk.exists_group inside p.ordered
  have splice : Splice (Text.byteLength []) text.toList (hunks.flatMap (·.edits)) result.toList := by
    rw [all]
    exact apply_eq_ok_iff.mp applied
  have first : 1 = ([] : List Char).count '\n' + 1 + 0 := rfl
  have level : ((1 : Nat) : Int) = (1 : Nat) + 0 := rfl
  obtain ⟨printed, rendered, length, _, lines⟩ := Hunk.exists_renderAll (List.nil_append _).symm holds
    apart (fun _ _ => Nat.zero_le _) (fun _ _ _ _ _ _ => Nat.zero_le _) splice first level
  refine ⟨result, printed, applied, ?_, ?_, lines.showsChange⟩
  case _ =>
    rintro rfl
    rw [List.length_nil, eq_comm, List.length_eq_zero_iff] at length
    subst length
    simp [hasEdits, ← all] at some
  case _ =>
    have none : (!p.hasEdits) = false := by simp [some]
    simp [diff, none, grouped, rendered, bind, Except.bind, pure, Except.pure]

-- A line that becomes two, and the last line, which nothing ends.
theorem diff_shows_lines_grown :
    ∃ p : PatchSet, p.edits = [⟨.ofLength 3 1, "x\ny"⟩, ⟨.ofLength 6 0, "!"⟩] ∧ p.hasEdits ∧
      (∀ e ∈ p.edits, Text.IsBoundary "a\r\nb\nc".toList e.span.start ∧
        Text.IsBoundary "a\r\nb\nc".toList e.span.stop) ∧
      ∃ result hunks, p.apply "a\r\nb\nc" = .ok result ∧ hunks ≠ [] ∧
        p.diff "f" "a\r\nb\nc" = .ok ("--- a/" ++ "f" ++ "\n+++ b/" ++ "f" ++ "\n"
          ++ String.ofList (hunks.flatMap PrintedHunk.text)) ∧
        ShowsChange (Text.shownLines "a\r\nb\nc".toList) (Text.shownLines result.toList) hunks := by
  let p : PatchSet := ⟨[⟨.ofLength 3 1, "x\ny"⟩, ⟨.ofLength 6 0, "!"⟩], by simp [Span.ofLength]⟩
  have inside : ∀ e ∈ p.edits, Text.IsBoundary "a\r\nb\nc".toList e.span.start ∧
      Text.IsBoundary "a\r\nb\nc".toList e.span.stop := by
    simp only [p, List.forall_mem_cons, List.not_mem_nil, false_imp_iff, implies_true, and_true]
    exact ⟨⟨⟨['a', '\r', '\n'], ['b', '\n', 'c'], rfl, rfl⟩,
        ['a', '\r', '\n', 'b'], ['\n', 'c'], rfl, rfl⟩,
      ⟨['a', '\r', '\n', 'b', '\n', 'c'], [], rfl, rfl⟩,
        ['a', '\r', '\n', 'b', '\n', 'c'], [], rfl, rfl⟩
  exact ⟨p, rfl, rfl, inside, diff_shows_lines p "f" "a\r\nb\nc" rfl inside⟩

end PatchSet
end Repin
