import Repin.Proofs.Version.Floating
import Repin.Proofs.Yaml.Block
/-!
# A block scalar that gains a line

A list of versions in a block scalar gains its line behind the last printed line of the block. Its
indentation is copied from an entry behind the first one, whose whole line stands in the span, so the
new line stands in the block and is its last one. Main statement: `ScalarPlace.blockScalar_upgraded`.
-/
namespace Repin.Yaml.ScalarPlace

open Text (trim trimEnd stripTerminator terminatedLines lastLine byteLength splitAt isBlank Lines)

variable {n : Nat} {cs last line row gap before after under source value : List Char} {marker : Nat}
variable {front back : List (List Char)}

-- A row of a block: indented as far as the block, on one line and printed to its end.
structure IsRow (n : Nat) (row : List Char) : Prop where
  indented : n ≤ indentOf row
  single : '\n' ∉ row
  last : ∃ c, row.getLast? = some c ∧ isBlank c = false

namespace IsRow

theorem ne_nil (h : IsRow n row) : row ≠ [] := by
  rintro rfl
  obtain ⟨c, hc, _⟩ := h.last
  cases hc

theorem trimEnd_eq (h : IsRow n row) : trimEnd row = row := by
  obtain ⟨c, hc, printed⟩ := h.last
  exact Text.trimEnd_eq_self fun d hd => Option.some.inj (hc.symm.trans hd) ▸ printed

theorem stripTerminator_append_eq (h : IsRow n row) (tail : List Char) :
    stripTerminator (row ++ tail) = row ++ stripTerminator tail := by
  obtain ⟨c, hc, printed⟩ := h.last
  exact Text.stripTerminator_append (fun d hd => Option.some.inj (hc.symm.trans hd) ▸ printed) tail

theorem printed (h : IsRow n row) (tail : List Char) : trim (row ++ tail) ≠ [] := by
  obtain ⟨c, hc, printed⟩ := h.last
  intro none
  have blank := Text.trim_eq_nil_iff.mp none c (List.mem_append_left _ (List.mem_of_getLast? hc))
  rw [printed] at blank
  cases blank

theorem le_indentOf_append (h : IsRow n row) (tail : List Char) : n ≤ indentOf (row ++ tail) := by
  have printed := h.printed []
  rw [List.append_nil] at printed
  rw [indentOf_append printed]
  exact h.indented

theorem le_length (h : IsRow n row) : n ≤ row.length :=
  Nat.le_trans h.indented (List.takeWhile_prefix _).length_le

-- What is printed of a row does not depend on the blanks behind it.
theorem trimEnd_drop_append (h : IsRow n row) {blanks : List Char} (hb : ∀ c ∈ blanks, isBlank c) :
    trimEnd ((row ++ blanks).drop n) = row.drop n := by
  obtain ⟨c, hc, printed⟩ := h.last
  rw [List.drop_append_of_le_length h.le_length, Text.trimEnd_append_blanks hb]
  apply Text.trimEnd_eq_self
  intro d hd
  rw [List.getLast?_drop] at hd
  split at hd
  case isTrue => cases hd
  case isFalse => exact Option.some.inj (hc.symm.trans hd) ▸ printed

end IsRow

-- The last printed line of a block is a row with blanks behind it.
theorem IsBlock.exists_row (h : IsBlock n front last back) (hl : Lines cs (front ++ last :: back)) :
    ∃ gap, last = trimEnd (stripTerminator last) ++ gap ∧ (∀ c ∈ gap, isBlank c) ∧
      IsRow n (trimEnd (stripTerminator last)) := by
  have ⟨ending, whole, ofEnding⟩ := Text.exists_append_stripTerminator last
  have parts := Text.trimEnd_append_trailing (stripTerminator last)
  have ne : trimEnd (stripTerminator last) ≠ [] := by
    intro none
    exact h.printed (Text.trim_eq_nil_iff.mpr (Text.trimEnd_eq_nil_iff.mp none))
  have ⟨c, hc⟩ := Option.ne_none_iff_exists'.mp (mt List.getLast?_eq_none_iff.mp ne)
  have printed := Text.isBlank_getLast?_trimEnd hc
  refine ⟨Text.trailing (stripTerminator last) ++ ending, ?whole, ?blank, ?indented, ?single, c, hc,
    printed⟩
  case whole => rw [← List.append_assoc, parts, ← whole]
  case blank =>
    intro d hd
    exact (List.mem_append.mp hd).elim Text.isBlank_of_mem_trailing (ofEnding d)
  case indented =>
    have content : trim (trimEnd (stripTerminator last)) ≠ [] := by
      intro none
      have blank := Text.trim_eq_nil_iff.mp none c (List.mem_of_getLast? hc)
      rw [printed] at blank
      cases blank
    rw [← indentOf_append content (Text.trailing (stripTerminator last)), parts]
    exact h.indented
  case single =>
    intro hm
    exact Text.newline_not_mem_stripTerminator hl (by simp) ((Text.trimEnd_isPrefix _).mem hm)

-- Every printed line of a block is indented, with the carriage return at its end or without it.
theorem IsBlock.le_indentOf {terminated : List Char} (h : IsBlock n front last back)
    (ht : terminated ∈ front) (printed : trim (Text.stripLast '\n' terminated) ≠ []) :
    n ≤ indentOf (Text.stripLast '\n' terminated) := by
  obtain ⟨ending, whole, returns⟩ := Text.exists_append_stripLast '\r' (Text.stripLast '\n' terminated)
  have blanks : ∀ d ∈ ending, isBlank d := fun d hd => returns d hd ▸ by decide
  have content : trim (stripTerminator terminated) ≠ [] := by
    rw [whole, Text.trim_append_blanks blanks] at printed
    exact printed
  have indented := h.inside terminated ht content
  rw [whole]
  rwa [← indentOf_append content ending] at indented

-- A row that is written behind the last row of a block ends the block in its place.
theorem IsBlock.append_row {bottom : List Char} (h : IsBlock n front (bottom ++ gap) back)
    (hl : Lines cs (front ++ (bottom ++ gap) :: back)) (hb : IsRow n bottom) (hr : IsRow n row)
    (newline : Newline) :
    terminatedLines (front.flatten ++ (bottom ++ (newline.text.toList ++ (row ++ (gap ++ back.flatten)))))
      = (front ++ [bottom ++ newline.text.toList]) ++ (row ++ gap) :: back ∧
    IsBlock n (front ++ [bottom ++ newline.text.toList]) (row ++ gap) back where
  left := by
    have split (tail : List Char) : terminatedLines (bottom ++ (newline.text.toList ++ tail))
        = (bottom ++ newline.text.toList) :: terminatedLines tail := by
      cases newline with
      | lf => exact Text.terminatedLines_append hb.single
      | crlf =>
        have whole : bottom ++ (Newline.crlf.text.toList ++ tail) = (bottom ++ ['\r']) ++ '\n' :: tail := by
          simp [Newline.text]
        rw [whole, Text.terminatedLines_append (by simp [hb.single])]
        simp [Newline.text]
    rw [Text.terminatedLines_flatten_append hl (by simp), split,
      Text.terminatedLines_of_start hl.of_append hb.single hr.single hr.ne_nil]
    simp
  right :=
    { inside := by
        rw [List.forall_mem_append]
        refine ⟨h.inside, List.forall_mem_singleton.mpr fun _ => ?_⟩
        rw [hb.stripTerminator_append_eq]
        exact hb.le_indentOf_append _
      printed := hr.stripTerminator_append_eq gap ▸ hr.printed _
      indented := hr.stripTerminator_append_eq gap ▸ hr.le_indentOf_append _
      closed := h.closed }

-- The content has one line more, whatever blanks stand at the ends of lines.
theorem contentLines_append_row {bottom : List Char} (hb : IsRow n bottom) (hr : IsRow n row)
    (hg : ∀ c ∈ gap, isBlank c) (newline : Newline) :
    (contentLines n (front ++ [bottom ++ newline.text.toList]) (row ++ gap)).map trimEnd
      = (contentLines n front (bottom ++ gap)).map trimEnd ++ [row.drop n] := by
  have behind (ending : List Char) (h : ∀ c ∈ ending, isBlank c) :
      ∀ c ∈ stripTerminator ending, isBlank c :=
    fun c hc => h c ((Text.stripTerminator_isPrefix ending).mem hc)
  have feed : ∀ c ∈ newline.text.toList, isBlank c := by
    cases newline <;> exact List.all_eq_true.mp rfl
  have dedented : dedent n (bottom ++ stripTerminator newline.text.toList)
      = (bottom ++ stripTerminator newline.text.toList).drop n :=
    if_neg (by simpa using hb.printed _)
  simp only [contentLines, List.map_append, List.map_cons, List.map_nil,
    hb.stripTerminator_append_eq, hr.stripTerminator_append_eq, dedented,
    hb.trimEnd_drop_append (behind _ feed), hb.trimEnd_drop_append (behind _ hg),
    hr.trimEnd_drop_append (behind _ hg)]

theorem newline_not_mem_contentLines (hl : Lines cs (front ++ last :: back)) :
    ∀ line ∈ contentLines n front last, '\n' ∉ line := by
  intro line hm
  rcases List.mem_append.mp hm with hm | hm
  case inl =>
    obtain ⟨terminated, ht, rfl⟩ := List.mem_map.mp hm
    unfold dedent
    split
    case isTrue => exact List.not_mem_nil
    case isFalse =>
      exact fun hd => Text.newline_not_mem_stripTerminator hl (List.mem_append_left _ ht)
        (List.mem_of_mem_drop hd)
  case inr =>
    rw [List.mem_singleton.mp hm]
    exact fun hd => Text.newline_not_mem_stripTerminator hl (by simp) (List.mem_of_mem_drop hd)

theorem splitAt_contentLines (hl : Lines cs (front ++ last :: back)) :
    splitAt '\n' (['\n'].intercalate (contentLines n front last)) = contentLines n front last :=
  Text.splitAt_intercalate (by simp [contentLines]) (newline_not_mem_contentLines hl)

-- A value may end with any number of line feeds behind the content.
theorem withoutLastBreaks_content (h : IsBlock n front last back)
    (hl : Lines cs (front ++ last :: back)) (breaks : Nat) :
    withoutLastBreaks (['\n'].intercalate (contentLines n front last) ++ List.replicate breaks '\n')
      = ['\n'].intercalate (contentLines n front last) := by
  have suffix (lines : List (List Char)) (line : List Char) :
      line <:+ ['\n'].intercalate (lines ++ [line]) := by
    induction lines with
    | nil => simp
    | cons first lines ih =>
      rw [List.cons_append, List.intercalate_cons_of_ne_nil (by simp)]
      exact ih.trans (List.suffix_append _ _)
  have ⟨above, whole⟩ := suffix (front.map fun line => dedent n (stripTerminator line))
    ((stripTerminator last).drop n)
  have ⟨d, hd⟩ := Option.ne_none_iff_exists'.mp <|
    mt List.getLast?_eq_none_iff.mp (drop_ne_nil h.printed h.indented)
  have other : d ≠ '\n' := by
    rintro rfl
    exact newline_not_mem_contentLines (n := n) hl _ (by simp [contentLines]) (List.mem_of_getLast? hd)
  have end' : (['\n'].intercalate (contentLines n front last)).getLast? = some d := by
    rw [contentLines, ← whole, List.getLast?_append, hd]
    rfl
  have breaks' : ∀ c ∈ List.replicate breaks '\n', decide (c = '\n') := by simp
  generalize ['\n'].intercalate (contentLines n front last) = content at end'
  rw [withoutLastBreaks, List.reverse_append, List.reverse_replicate,
    List.dropWhile_append_of_pos breaks']
  rw [← List.head?_reverse] at end'
  cases hr : content.reverse with
  | nil => simp [hr] at end'
  | cons first rest =>
    have : first = d := by simpa [hr] using end'
    rw [List.dropWhile_cons_of_neg (by simp [this, other]), ← hr, List.reverse_reverse]

-- A block scalar in its source: the text in front of its marker, the text under its span and the text
-- behind, with the lines that they make.
structure Stands (before under after : List Char) (front : List (List Char)) (bottom gap : List Char)
    (back : List (List Char)) : Prop where
  opens : Opens before
  lines : Lines (lastLine before ++ (under ++ after)) (front ++ (bottom ++ gap) :: back)
  block : IsBlock (lastLine before).length front (bottom ++ gap) back
  row : IsRow (lastLine before).length bottom
  blank : ∀ c ∈ gap, isBlank c
  content : lastLine before ++ under = front.flatten ++ bottom
  behind : after = gap ++ back.flatten

namespace Stands

variable {bottom : List Char}

theorem blockScalar_eq_isContent (h : Stands before under after front bottom gap back)
    (hv : value ≠ []) (literal : Bool) :
    blockScalar (before ++ (under ++ after)) (byteLength before) value literal
      = ⟨.ofLength (byteLength before) (byteLength under),
          1 < (contentLines (lastLine before).length front (bottom ++ gap)).length,
          isContent literal (contentLines (lastLine before).length front (bottom ++ gap)) value⟩ := by
  apply blockScalar_of_isBlock h.opens hv h.lines.terminatedLines_eq h.block
  have blank : ∀ c ∈ stripTerminator gap, isBlank c :=
    fun c hc => h.blank c ((Text.stripTerminator_isPrefix gap).mem hc)
  rw [h.row.stripTerminator_append_eq, Text.trimEnd_append_blanks blank, h.row.trimEnd_eq, h.content]

theorem blockScalar_eq (h : Stands before under after front bottom gap back) (hv : value ≠ []) :
    blockScalar (before ++ (under ++ after)) (byteLength before) value true
      = ⟨.ofLength (byteLength before) (byteLength under),
          1 < (contentLines (lastLine before).length front (bottom ++ gap)).length,
          ['\n'].intercalate (contentLines (lastLine before).length front (bottom ++ gap))
            = withoutLastBreaks value⟩ :=
  h.blockScalar_eq_isContent hv true

-- The text under the span ends with the last row.
theorem trimEnd_eq (h : Stands before under after front bottom gap back) : trimEnd under = under := by
  obtain ⟨c, hc, printed⟩ := h.row.last
  apply Text.trimEnd_eq_self
  intro d hd
  have last := congrArg List.getLast? h.content
  rw [List.getLast?_append, List.getLast?_append, hd, hc] at last
  cases last
  exact printed

-- A row that is written behind the text under the span is the last row of the block.
theorem append_row (h : Stands before under after front bottom gap back)
    (hr : IsRow (lastLine before).length row) (newline : Newline) :
    Stands before (under ++ (newline.text.toList ++ row)) after
      (front ++ [bottom ++ newline.text.toList]) row gap back where
  opens := h.opens
  lines := by
    have cut := (h.block.append_row h.lines h.row hr newline).left
    have whole : lastLine before ++ (under ++ (newline.text.toList ++ row) ++ after)
        = front.flatten ++ (bottom ++ (newline.text.toList ++ (row ++ (gap ++ back.flatten)))) := by
      simp only [← List.append_assoc, h.content, h.behind]
    rw [whole, ← cut]
    exact Text.lines_terminatedLines _
  block := (h.block.append_row h.lines h.row hr newline).right
  row := hr
  blank := h.blank
  content := by simp [← List.append_assoc, h.content]
  behind := h.behind

-- Every line under the span but the first one is indented as far as the block.
theorem le_indentOf {first : List Char} {rest : List (List Char)}
    (h : Stands before under after front bottom gap back) (cut : splitAt '\n' under = first :: rest)
    (hm : line ∈ rest) (printed : ∃ d ∈ line, isBlank d = false) :
    (lastLine before).length ≤ indentOf line := by
  have margin : '\n' ∉ lastLine before := by
    intro hn
    simpa using List.all_eq_true.mp h.opens.spaces _ hn
  have whole := Text.splitAt_append_of_not_mem margin cut
  rw [h.content] at whole
  have piece : line ∈ splitAt '\n' (front.flatten ++ bottom) := whole ▸ List.mem_cons_of_mem _ hm
  rw [Text.splitAt_flatten_append h.lines (by simp) h.row.single] at piece
  rcases List.mem_append.mp piece with inside | behind
  case inl =>
    obtain ⟨terminated, ht, rfl⟩ := List.mem_map.mp inside
    refine h.block.le_indentOf ht fun none => ?_
    obtain ⟨d, hd, printed⟩ := printed
    simp [Text.trim_eq_nil_iff.mp none d hd] at printed
  case inr => exact List.mem_singleton.mp behind ▸ h.row.indented

end Stands

theorem exists_takeWhile_isBlank (h : n ≤ indentOf line) :
    ∃ blanks, line.takeWhile isBlank = List.replicate n ' ' ++ blanks ∧ ∀ c ∈ blanks, isBlank c := by
  have spaces : ∀ c ∈ List.replicate n ' ', isBlank c := by
    simp only [List.mem_replicate]
    rintro c ⟨_, rfl⟩
    decide
  refine ⟨(line.drop n).takeWhile isBlank, ?_, List.all_eq_true.mp List.all_takeWhile⟩
  rw [replicate_append_drop h, List.takeWhile_append_of_pos spaces]
  simp

-- The indentation of a list in a block starts with that of the block.
theorem Stands.exists_indent {list : FloatingList}
    (h : Stands before under after front bottom gap back)
    (hl : FloatingList.parse (String.ofList under) = .ok list) (several : list.isMultiLine) :
    ∃ blanks, ((list.lines.filterMap FloatingLine.indent?).getLast?.getD "").toList
        = List.replicate (lastLine before).length ' ' ++ blanks ∧
      (∀ d ∈ blanks, isBlank d) ∧ '\n' ∉ blanks := by
  have ⟨first, rest, cut⟩ := List.exists_cons_of_ne_nil (Text.splitOn_ne_nil (· == '\n') under)
  have cut' : splitAt '\n' (String.ofList under).toList = first :: rest := by simpa using cut
  have ⟨line, hm, indent, printed⟩ := FloatingList.exists_last_indent hl several cut'
  have ⟨blanks, parts, blank⟩ := exists_takeWhile_isBlank (h.le_indentOf cut hm printed)
  refine ⟨blanks, by rw [indent, String.toList_ofList, parts], blank, fun hn => ?_⟩
  have piece : line ∈ splitAt '\n' (String.ofList under).toList := cut' ▸ List.mem_cons_of_mem _ hm
  apply Text.not_mem_of_mem_splitAt piece
  apply (List.takeWhile_prefix isBlank).mem
  exact parts ▸ List.mem_append_right _ hn

theorem IsBlock.exists_stands (h : IsBlock (lastLine before).length front last back)
    (ho : Opens before) (hl : Lines (lastLine before ++ cs) (front ++ last :: back)) :
    ∃ under after bottom gap, cs = under ++ after ∧
      Stands before under after front bottom gap back := by
  have whole : lastLine before ++ cs = front.flatten ++ (last ++ back.flatten) := by
    rw [← hl.flatten_eq, List.flatten_append, List.flatten_cons]
  obtain ⟨under, content⟩ := h.exists_under ho.spaces whole
  obtain ⟨gap, hg, blank, row⟩ := h.exists_row hl
  have parts : cs = under ++ (gap ++ back.flatten) := by
    apply (List.append_right_inj (lastLine before)).mp
    calc lastLine before ++ cs
      _ = front.flatten ++ (trimEnd (stripTerminator last) ++ gap ++ back.flatten) := by rw [whole, ← hg]
      _ = lastLine before ++ under ++ (gap ++ back.flatten) := by simp only [content, List.append_assoc]
      _ = lastLine before ++ (under ++ (gap ++ back.flatten)) := List.append_assoc ..
  exact ⟨under, gap ++ back.flatten, _, gap, parts, ho, by rwa [← hg, ← parts], by rwa [← hg], row,
    blank, content, rfl⟩

-- The ways in which a block scalar is found.
inductive Finds (before after value : List Char) (literal : Bool) : ScalarPlace → Prop where
  -- Nothing is known of what does not stand behind an opening.
  | unknown : Finds before after value literal (unknown (byteLength before))
  -- There are no lines of content.
  | ends : Opens before → value ≠ [] →
    Ends (lastLine before).length (terminatedLines (lastLine before ++ after)) →
      Finds before after value literal
        ⟨.ofLength (byteLength before) 0, false, isContent literal [] value⟩
  | stands {under behind bottom gap : List Char} {front back : List (List Char)} :
    after = under ++ behind → Stands before under behind front bottom gap back → value ≠ [] →
      Finds before after value literal ⟨.ofLength (byteLength before) (byteLength under),
        1 < (contentLines (lastLine before).length front (bottom ++ gap)).length,
        isContent literal (contentLines (lastLine before).length front (bottom ++ gap)) value⟩

theorem finds_blockScalar (before after value : List Char) (literal : Bool) :
    Finds before after value literal
      (blockScalar (before ++ after) (byteLength before) value literal) := by
  by_cases open' : Opens before ∧ value ≠ []
  case neg =>
    have closed : blockScalar (before ++ after) (byteLength before) value literal
        = ScalarPlace.unknown (byteLength before) := by
      rw [blockScalar, Text.splitAtByte_append]
      dsimp only
      split
      case isTrue => rfl
      case isFalse ready =>
        rw [if_pos]
        by_contra deeper
        simp only [Bool.or_eq_true, not_or, List.isEmpty_iff, decide_eq_true_eq, Bool.not_eq_true',
          Bool.not_eq_false] at ready
        exact open' ⟨⟨ready.left.right, ready.right, Nat.not_le.mp deeper⟩, ready.left.left⟩
    exact closed ▸ .unknown
  case pos =>
    obtain ⟨opens, hv⟩ := open'
    rcases ends_or_exists_isBlock (lastLine before).length (terminatedLines (lastLine before ++ after))
      with ends | ⟨front, last, back, cut, block⟩
    case inl => exact blockScalar_eq_of_ends opens hv ends ▸ .ends opens hv ends
    case inr =>
      have lines := Text.lines_terminatedLines (lastLine before ++ after)
      obtain ⟨under, behind, bottom, gap, rfl, stands⟩ := block.exists_stands opens (cut ▸ lines)
      exact stands.blockScalar_eq_isContent hv literal ▸ .stands rfl stands hv

theorem isRow_upgraded (n : Nat) {blanks : List Char} (hn : '\n' ∉ blanks) (e : FloatingExpr) (c : Channel) :
    IsRow n (List.replicate n ' ' ++ (blanks ++ (e.upgraded c).toList)) where
  indented := indentOf_replicate_append n _
  single := by
    simp [hn, FloatingExpr.newline_not_mem_upgraded]
  last := by
    have ⟨d, hd⟩ := Option.ne_none_iff_exists'.mp
      (mt List.getLast?_eq_none_iff.mp (FloatingExpr.upgraded_ne_nil (e := e) (c := c)))
    refine ⟨d, ?_, FloatingExpr.isBlank_of_mem_upgraded d (List.mem_of_getLast? hd)⟩
    rw [List.getLast?_append, List.getLast?_append, hd]
    rfl

-- A list in a block stands behind its opening, as the rows of the block.
theorem exists_stands_of_isMultiLine {list : FloatingList}
    (h : (blockScalar source marker value true).patchable)
    (hu : Text.slice (blockScalar source marker value true).span.start
      (blockScalar source marker value true).span.stop source = some under)
    (hl : FloatingList.parse (String.ofList under) = .ok list) (several : list.isMultiLine) :
    ∃ before after front bottom gap back, source = before ++ (under ++ after) ∧
      byteLength before = marker ∧ value ≠ [] ∧ Stands before under after front bottom gap back := by
  have ⟨before, cs, whole, length, opens, hv⟩ := exists_opens_of_patchable h
  subst whole length
  have found := finds_blockScalar before cs value true
  generalize blockScalar (before ++ cs) (byteLength before) value true = place at h hu found
  cases found with
  | unknown => cases h
  | ends =>
    rw [Text.slice_eq_some_iff] at hu
    obtain ⟨_, _, _, first, length⟩ := hu
    dsimp only [Span.ofLength] at length
    have none : under = [] := Text.byteLength_eq_zero_iff.mp (by omega)
    subst none
    have cut : splitAt '\n' (String.ofList []).toList = [[]] := rfl
    obtain ⟨_, hm, _⟩ := FloatingList.exists_last_indent hl several cut
    cases hm
  | @stands under' after bottom gap front back whole stands =>
    subst whole
    have slice : Text.slice (byteLength before) (byteLength before + byteLength under')
        (before ++ (under' ++ after)) = some under' :=
      Text.slice_eq_some_iff.mpr ⟨before, after, rfl, rfl, Nat.add_comm ..⟩
    cases slice.symm.trans hu
    exact ⟨before, after, front, bottom, gap, back, rfl, rfl, hv, stands⟩

-- A list whose entries can be ranked, with a further line, takes the place of the text under its span.
-- What the block then reads is the content with one line behind it, whatever blanks the lines end with and
-- however many line feeds the value ends with.
theorem blockScalar_upgraded {list : FloatingList} {c : Channel} (newline : Newline)
    (h : (blockScalar source marker value true).patchable)
    (hu : Text.slice (blockScalar source marker value true).span.start
      (blockScalar source marker value true).span.stop source = some under)
    (hl : FloatingList.parse (String.ofList under) = .ok list) (several : list.isMultiLine)
    (below : list.isAtLeast c = false) (ranks : list.Ranks) :
    ∃ new before after template indent blanks content,
      list.upgraded c newline = .ok new ∧
      source = before ++ (under ++ after) ∧ byteLength before = marker ∧
      (blockScalar source marker value true).span = .ofLength marker (byteLength under) ∧
      list.highest? = .ok (some template) ∧ (∀ d ∈ blanks, isBlank d) ∧
      new.toList = under ++ (newline.text.toList ++
        (List.replicate indent ' ' ++ (blanks ++ (template.expr.upgraded c).toList))) ∧
      (splitAt '\n' content).map trimEnd = (splitAt '\n' (withoutLastBreaks value)).map trimEnd
        ++ [blanks ++ (template.expr.upgraded c).toList] ∧
      indentAt? source marker = some indent ∧
      indentAt? (before ++ (new.toList ++ after)) marker = some indent ∧
      ∀ breaks, blockScalar (before ++ (new.toList ++ after)) marker
        (content ++ List.replicate breaks '\n') true
          = ⟨.ofLength marker (byteLength new.toList), true, true⟩ := by
  obtain ⟨before, after, front, bottom, gap, back, rfl, rfl, hv, stands⟩ :=
    exists_stands_of_isMultiLine h hu hl several
  have ⟨template, new, highest, upgraded, written⟩ :=
    FloatingList.upgraded_of_isMultiLine newline hl several below ranks
  have ⟨blanks, indent, blank, single⟩ := stands.exists_indent hl several
  have trailing : Text.trailing under = [] := by simp [Text.trailing, stands.trimEnd_eq]
  have row := isRow_upgraded (lastLine before).length single template.expr c
  have stands' := stands.append_row row newline
  have text : new.toList = under ++ (newline.text.toList ++
      (List.replicate (lastLine before).length ' ' ++
        (blanks ++ (template.expr.upgraded c).toList))) := by
    rw [written, String.toList_ofList, stands.trimEnd_eq, trailing, indent, List.append_nil,
      List.append_assoc]
  rw [stands.blockScalar_eq hv] at h
  have old : ['\n'].intercalate (contentLines (lastLine before).length front (bottom ++ gap))
      = withoutLastBreaks value := of_decide_eq_true h
  generalize hr : List.replicate (lastLine before).length ' ' ++ (blanks ++
    (template.expr.upgraded c).toList) = row' at row stands' text
  refine ⟨new, before, after, template, (lastLine before).length, blanks,
    ['\n'].intercalate (contentLines (lastLine before).length (front ++ [bottom ++ newline.text.toList])
      (row' ++ gap)), upgraded, rfl, rfl, by rw [stands.blockScalar_eq hv], highest, blank, hr ▸ text,
    ?lines, indentAt?_append _ _, indentAt?_append _ _, ?place⟩
  case lines =>
    rw [splitAt_contentLines stands'.lines, ← old, splitAt_contentLines stands.lines,
      contentLines_append_row stands.row row stands.blank, ← hr, List.drop_left' (by simp)]
  case place =>
    intro breaks
    rw [text, stands'.blockScalar_eq, withoutLastBreaks_content stands'.block stands'.lines]
    · simp [contentLines]
    · intro none
      have cut := splitAt_contentLines (n := (lastLine before).length) stands'.lines
      rw [(List.append_eq_nil_iff.mp none).left] at cut
      have length := congrArg List.length cut
      simp [contentLines, Text.splitOn] at length

theorem blockScalar_upgraded_deeper :
    let source := "v: |\r\n  6.x\r\n    7.x # new \r\nw: 1".toList
    let value := "6.x\n  7.x # new \n".toList
    let under := "6.x\r\n    7.x # new".toList
    let list : FloatingList := ⟨[.entry "" "6.x" "\r" ⟨.anyMinor 6 .lowerX, none⟩,
      .entry "    " "7.x" " # new" ⟨.anyMinor 7 .lowerX, some " # new"⟩]⟩
    let c : Channel := .ofNumbers 8 0
    (blockScalar source 8 value true).patchable ∧
    Text.slice (blockScalar source 8 value true).span.start (blockScalar source 8 value true).span.stop
      source = some under ∧
    FloatingList.parse (String.ofList under) = .ok list ∧ list.isMultiLine ∧
    list.isAtLeast c = false ∧ list.Ranks ∧
    ∃ new before after template indent blanks content,
      list.upgraded c .crlf = .ok new ∧
      source = before ++ (under ++ after) ∧ byteLength before = 8 ∧
      (blockScalar source 8 value true).span = .ofLength 8 (byteLength under) ∧
      list.highest? = .ok (some template) ∧ (∀ d ∈ blanks, isBlank d) ∧
      new.toList = under ++ (Newline.crlf.text.toList ++
        (List.replicate indent ' ' ++ (blanks ++ (template.expr.upgraded c).toList))) ∧
      (splitAt '\n' content).map trimEnd = (splitAt '\n' (withoutLastBreaks value)).map trimEnd
        ++ [blanks ++ (template.expr.upgraded c).toList] ∧
      indentAt? source 8 = some indent ∧
      indentAt? (before ++ (new.toList ++ after)) 8 = some indent ∧
      ∀ breaks, blockScalar (before ++ (new.toList ++ after)) 8
        (content ++ List.replicate breaks '\n') true
          = ⟨.ofLength 8 (byteLength new.toList), true, true⟩ := by
  intro source value under list c
  have patchable : (blockScalar source 8 value true).patchable := by decide +kernel
  have slice : Text.slice (blockScalar source 8 value true).span.start
      (blockScalar source 8 value true).span.stop source = some under := by decide +kernel
  have parsed : FloatingList.parse (String.ofList under) = .ok list := by decide +kernel
  have several : list.isMultiLine := by decide
  have below : list.isAtLeast c = false := by decide
  have ranks : list.Ranks := by decide
  exact ⟨patchable, slice, parsed, several, below, ranks,
    blockScalar_upgraded .crlf patchable slice parsed several below ranks⟩

end Repin.Yaml.ScalarPlace
