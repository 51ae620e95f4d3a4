import Mathlib.Data.List.Induction
import Repin.Proofs.Version.Listed
import Repin.Proofs.Yaml.BlockCuts
import Repin.Proofs.Yaml.Node
/-!
# A literal block reads as its value

The source of a literal block that can be patched is its value, but for the indentation, the ends of lines
and the blanks in blank lines. So a list of versions that is read from the source is the one that is read
from the value.

Main statement: `ScalarPlace.blockScalar_reproduces`.
-/
namespace Repin.Yaml.ScalarPlace

open Text (trim trimEnd stripLast stripTerminator lastLine byteLength splitAt isBlank Lines)

variable {n marker : Nat} {margin before under after source value line bottom gap : List Char}
variable {front back : List (List Char)}

-- Strips the carriage return of every line that a line feed follows.
def stripReturns : List (List Char) → List (List Char)
  | [] => []
  | [last] => [last]
  | line :: next :: lines => stripLast '\r' line :: stripReturns (next :: lines)

-- The lines of a text, cut at every line feed with the carriage return in front of it.
def rows (cs : List Char) : List (List Char) :=
  stripReturns (splitAt '\n' cs)

-- Removes the indentation of all lines but the first one, and reads blank lines as empty.
def undented (n : Nat) : List (List Char) → List (List Char)
  | [] => []
  | first :: rest => dedent 0 first :: rest.map (dedent n)

-- A text without the blanks at the end of its last line.
def trimLastLine (cs : List Char) : List Char :=
  cs.take (cs.length - (lastLine cs).length) ++ trimEnd (lastLine cs)

-- What a literal block in its source has to do with its value.
structure Reproduces (before under after value : List Char) : Prop where
  content : ['\n'].intercalate (undented (lastLine before).length (rows under))
    = trimLastLine (withoutLastBreaks value)
  indented : ∀ line ∈ splitAt '\n' (lastLine before ++ (under ++ after.takeWhile (· ≠ '\n'))),
    trim line ≠ [] → (lastLine before).length ≤ indentOf line
  expressions : FloatingList.ReadAlike (FloatingList.parse (String.ofList under))
    (FloatingList.parse (String.ofList value))

theorem stripReturns_append (pieces : List (List Char)) (last : List Char) :
    stripReturns (pieces ++ [last]) = pieces.map (stripLast '\r') ++ [last] := by
  induction pieces with
  | nil => rfl
  | cons first pieces ih =>
    cases pieces with
    | nil => rfl
    | cons second pieces => exact congrArg (stripLast '\r' first :: ·) ih

theorem rows_flatten_append {cs : List Char} {ls : List (List Char)} (h : Lines cs (front ++ ls))
    (ne : ls ≠ []) (hb : '\n' ∉ bottom) :
    rows (front.flatten ++ bottom) = front.map stripTerminator ++ [bottom] := by
  rw [rows, Text.splitAt_flatten_append h ne hb, stripReturns_append, List.map_map]
  rfl

-- A margin stands in front of the first row.
theorem exists_rows_append (hm : margin.all (· = ' ')) (cs : List Char) : ∃ first rest,
    rows cs = first :: rest ∧ rows (margin ++ cs) = (margin ++ first) :: rest := by
  have space : ∀ d ∈ margin, d = ' ' := by simpa using hm
  have inside : '\n' ∉ margin := fun hn => by simpa using space _ hn
  obtain ⟨first, rest, cut⟩ := List.exists_cons_of_ne_nil (Text.splitOn_ne_nil (· == '\n') cs)
  have cut' := Text.splitAt_append_of_not_mem inside cut
  cases rest with
  | nil =>
    refine ⟨first, [], ?_, ?_⟩
    · exact congrArg stripReturns cut
    · exact congrArg stripReturns cut'
  | cons second rest =>
    have returns : stripLast '\r' (margin ++ first) = margin ++ stripLast '\r' first := by
      apply Text.stripLast_append_of_ne
      intro d hd
      rw [space d (List.mem_of_getLast? hd)]
      decide
    refine ⟨stripLast '\r' first, stripReturns (second :: rest), ?_, ?_⟩
    · exact congrArg stripReturns cut
    · exact (congrArg stripReturns cut').trans (congrArg (· :: _) returns)

theorem isBlank_of_mem_spaces (hm : margin.all (· = ' ')) : ∀ d ∈ margin, isBlank d := by
  intro d hd
  have : d = ' ' := by simpa using List.all_eq_true.mp hm d hd
  exact this ▸ by decide

theorem dedent_margin (hm : margin.all (· = ' ')) (line : List Char) :
    dedent margin.length (margin ++ line) = dedent 0 line := by
  rw [dedent, dedent, Text.trim_blanks_append (isBlank_of_mem_spaces hm), List.drop_left, List.drop_zero]

-- Behind its margin a text is undented row by row.
theorem undented_rows (hm : margin.all (· = ' ')) (cs : List Char) :
    undented margin.length (rows cs) = (rows (margin ++ cs)).map (dedent margin.length) := by
  obtain ⟨first, rest, cut, cut'⟩ := exists_rows_append hm cs
  rw [cut, cut', List.map_cons, dedent_margin hm]
  rfl

theorem trimLastLine_intercalate (pieces : List (List Char)) (h : '\n' ∉ line) :
    trimLastLine (['\n'].intercalate (pieces ++ [line]))
      = ['\n'].intercalate (pieces ++ [trimEnd line]) := by
  have parts (line : List Char) :
      ['\n'].intercalate (pieces ++ [line]) = pieces.flatMap (· ++ ['\n']) ++ line := by
    rw [Text.intercalate_append_cons, List.flatMap_nil, List.append_nil]
  have last : lastLine (pieces.flatMap (· ++ ['\n']) ++ line) = line := by
    cases pieces using List.reverseRecOn with
    | nil => exact Text.lastLine_eq_self h
    | append_singleton pieces piece =>
      rw [List.flatMap_append, List.flatMap_singleton, List.append_assoc, List.append_assoc,
        ← List.append_assoc]
      exact Text.lastLine_append_of_not_mem _ h
  rw [parts, parts, trimLastLine, last, List.length_append, Nat.add_sub_cancel, List.take_left]

-- The indentation of a line is no part of its expression.
theorem expression_dedent (h : trim line ≠ [] → n ≤ indentOf line) :
    FloatingLine.expression (dedent n line) = FloatingLine.expression line := by
  by_cases none : trim line = []
  case pos =>
    rw [dedent, if_pos (by simp [none])]
    exact (FloatingLine.expression_of_isBlank (Text.trim_eq_nil_iff.mp none)).symm
  case neg =>
    have spaces : ∀ d ∈ List.replicate n ' ', isBlank d := isBlank_of_mem_spaces (by simp)
    rw [dedent, if_neg (by simpa using none)]
    conv_rhs => rw [replicate_append_drop (h none), FloatingLine.expression_blanks_append spaces]

theorem expression_stripLast (line : List Char) :
    FloatingLine.expression (stripLast '\r' line) = FloatingLine.expression line := by
  obtain ⟨ending, whole, returns⟩ := Text.exists_append_stripLast '\r' line
  have blanks : ∀ d ∈ ending, isBlank d := fun d hd => returns d hd ▸ by decide
  conv_rhs => rw [whole, FloatingLine.expression_append_blanks blanks]

theorem map_expression_margin (hm : margin.all (· = ' ')) (cs : List Char) :
    (splitAt '\n' (margin ++ cs)).map FloatingLine.expression
      = (splitAt '\n' cs).map FloatingLine.expression := by
  have inside : '\n' ∉ margin := by
    intro hn
    simpa using List.all_eq_true.mp hm _ hn
  obtain ⟨first, rest, cut⟩ := List.exists_cons_of_ne_nil (Text.splitOn_ne_nil (· == '\n') cs)
  have cut : splitAt '\n' cs = first :: rest := cut
  rw [Text.splitAt_append_of_not_mem inside cut, cut, List.map_cons, List.map_cons,
    FloatingLine.expression_blanks_append (isBlank_of_mem_spaces hm)]

-- Line feeds at the end add lines without expressions.
theorem listed_append_feeds (cs : List Char) (k : Nat) :
    FloatingList.listed (splitAt '\n' (cs ++ List.replicate k '\n'))
      = FloatingList.listed (splitAt '\n' cs) := by
  induction k with
  | zero => simp
  | succ k ih =>
    have none : FloatingLine.expression [] = [] := rfl
    rw [List.replicate_succ', ← List.append_assoc, Text.splitAt_append, ← ih]
    simp [FloatingList.listed, Text.splitAt_eq_singleton, none]

theorem listed_withoutLastBreaks (value : List Char) :
    FloatingList.listed (splitAt '\n' value)
      = FloatingList.listed (splitAt '\n' (withoutLastBreaks value)) := by
  obtain ⟨k, whole⟩ := exists_append_feeds value
  conv_lhs => rw [whole, listed_append_feeds]

namespace Stands

-- The printed part of the last line.
theorem trimEnd_drop (h : Stands before under after front bottom gap back) :
    trimEnd ((stripTerminator (bottom ++ gap)).drop (lastLine before).length)
      = bottom.drop (lastLine before).length := by
  rw [h.row.stripTerminator_append_eq]
  refine h.row.trimEnd_drop_append fun d hd => ?_
  exact h.blank d ((Text.stripTerminator_isPrefix gap).mem hd)

theorem undented_rows_eq (h : Stands before under after front bottom gap back) :
    undented (lastLine before).length (rows under)
      = front.map (fun line => dedent (lastLine before).length (stripTerminator line))
        ++ [bottom.drop (lastLine before).length] := by
  have printed : dedent (lastLine before).length bottom = bottom.drop (lastLine before).length := by
    have content := h.row.printed []
    rw [List.append_nil] at content
    exact if_neg (by simpa using content)
  rw [undented_rows h.opens.spaces, h.content, rows_flatten_append h.lines (by simp) h.row.single,
    List.map_append, List.map_map, List.map_singleton, printed]
  rfl

theorem content_eq (h : Stands before under after front bottom gap back)
    (content : ['\n'].intercalate (contentLines (lastLine before).length front (bottom ++ gap))
      = withoutLastBreaks value) :
    ['\n'].intercalate (undented (lastLine before).length (rows under))
      = trimLastLine (withoutLastBreaks value) := by
  have single : '\n' ∉ (stripTerminator (bottom ++ gap)).drop (lastLine before).length :=
    newline_not_mem_contentLines (n := (lastLine before).length) h.lines _ (by simp [contentLines])
  rw [← content, contentLines, trimLastLine_intercalate _ single, h.trimEnd_drop, h.undented_rows_eq]

theorem le_indentOf_touched (h : Stands before under after front bottom gap back) :
    ∀ line ∈ splitAt '\n' (lastLine before ++ (under ++ after.takeWhile (· ≠ '\n'))),
      trim line ≠ [] → (lastLine before).length ≤ indentOf line := by
  have single : '\n' ∉ bottom ++ after.takeWhile (· ≠ '\n') := by
    rw [List.mem_append, not_or]
    refine ⟨h.row.single, fun hn => ?_⟩
    simpa using List.all_eq_true.mp List.all_takeWhile _ hn
  rw [← List.append_assoc, h.content, List.append_assoc,
    Text.splitAt_flatten_append h.lines (by simp) single]
  intro line hl printed
  obtain hl | hl := List.mem_append.mp hl
  case inl =>
    obtain ⟨terminated, ht, rfl⟩ := List.mem_map.mp hl
    exact h.block.le_indentOf ht printed
  case inr =>
    rw [List.mem_singleton.mp hl]
    exact h.row.le_indentOf_append _

-- Each line of the content has the expression of its row.
theorem map_expression_eq (h : Stands before under after front bottom gap back) :
    (splitAt '\n' under).map FloatingLine.expression
      = (contentLines (lastLine before).length front (bottom ++ gap)).map FloatingLine.expression := by
  have rows : front.map (FloatingLine.expression ∘ stripLast '\n') = front.map
      (FloatingLine.expression ∘ fun line => dedent (lastLine before).length (stripTerminator line)) := by
    refine List.map_congr_left fun terminated ht => ?_
    rw [Function.comp_apply, Function.comp_apply, expression_dedent (h.block.inside terminated ht)]
    exact (expression_stripLast _).symm
  have blanks : ∀ d ∈ stripTerminator gap, isBlank d :=
    fun d hd => h.blank d ((Text.stripTerminator_isPrefix gap).mem hd)
  have last : FloatingLine.expression ((stripTerminator (bottom ++ gap)).drop (lastLine before).length)
      = FloatingLine.expression bottom := by
    have spaces : ∀ d ∈ List.replicate (lastLine before).length ' ', isBlank d :=
      isBlank_of_mem_spaces (by simp)
    have deep := h.row.le_indentOf_append (stripTerminator gap)
    have printed : FloatingLine.expression (bottom ++ stripTerminator gap)
        = FloatingLine.expression bottom := FloatingLine.expression_append_blanks blanks
    rw [h.row.stripTerminator_append_eq, ← printed]
    conv_rhs => rw [replicate_append_drop deep, FloatingLine.expression_blanks_append spaces]
  rw [← map_expression_margin h.opens.spaces, h.content,
    Text.splitAt_flatten_append h.lines (by simp) h.row.single, contentLines, List.map_append,
    List.map_append, List.map_map, List.map_map, rows, List.map_singleton, List.map_singleton, last]

theorem reproduces (h : Stands before under after front bottom gap back)
    (content : ['\n'].intercalate (contentLines (lastLine before).length front (bottom ++ gap))
      = withoutLastBreaks value) : Reproduces before under after value where
  content := h.content_eq content
  indented := h.le_indentOf_touched
  expressions := by
    apply FloatingList.readAlike_of_listed
    rw [String.toList_ofList, String.toList_ofList, listed_withoutLastBreaks value, ← content,
      splitAt_contentLines h.lines, FloatingList.listed, FloatingList.listed, h.map_expression_eq]

end Stands

-- Without content the value has line feeds only.
theorem reproduces_of_ends (h : Opens before) (none : withoutLastBreaks value = []) :
    Reproduces before [] after value where
  content := by
    rw [none]
    rfl
  indented := by
    have single : '\n' ∉ lastLine before ++ after.takeWhile (· ≠ '\n') := by
      rw [List.mem_append, not_or]
      constructor
      · exact fun hn => by simpa using List.all_eq_true.mp h.spaces _ hn
      · exact fun hn => by simpa using List.all_eq_true.mp List.all_takeWhile _ hn
    rw [List.nil_append, Text.splitAt_eq_singleton single, List.forall_mem_singleton]
    intro _
    have margin : lastLine before = List.replicate (lastLine before).length ' ' :=
      List.eq_replicate_of_mem (by simpa using h.spaces)
    conv_rhs => rw [margin]
    exact indentOf_replicate_append _ _
  expressions := by
    apply FloatingList.readAlike_of_listed
    rw [String.toList_ofList, String.toList_ofList, listed_withoutLastBreaks value, none]

-- A block scalar is found from every marker between characters without a cut that fails. A literal one
-- that can be patched reproduces its value.
theorem blockScalar_reproduces (h : Text.IsBoundary source marker) (value : List Char)
    (literal : Bool) :
    blockScalar? source marker value literal = some (blockScalar source marker value literal) ∧
    ∃ before under after, source = before ++ (under ++ after) ∧ byteLength before = marker ∧
      (blockScalar source marker value literal).span = .ofLength marker (byteLength under) ∧
      (literal → (blockScalar source marker value literal).patchable →
        Reproduces before under after value) := by
  obtain ⟨before, rest, rfl, rfl⟩ := h
  refine ⟨blockScalar?_append before rest value literal, ?_⟩
  have found := finds_blockScalar before rest value literal
  generalize blockScalar (before ++ rest) (byteLength before) value literal = place at found
  cases found with
  | unknown => exact ⟨before, [], rest, rfl, rfl, rfl, fun _ patchable => by cases patchable⟩
  | ends opens hv ends =>
    refine ⟨before, [], rest, rfl, rfl, rfl, fun literally patchable => ?_⟩
    exact reproduces_of_ends opens (isContent_nil patchable)
  | @stands under behind bottom gap front back whole stands hv =>
    subst whole
    refine ⟨before, under, behind, rfl, rfl, rfl, fun literally patchable => ?_⟩
    rw [literally] at patchable
    exact stands.reproduces (of_decide_eq_true patchable)

theorem blockScalar_reproduces_deeper :
    let source := "v: |\r\n  6.x # old\r\n \t\r\n    7.x \r\n\r\nw: 1".toList
    let value := "6.x # old\n\n  7.x \n".toList
    Text.IsBoundary source 8 ∧ (blockScalar source 8 value true).patchable ∧
    blockScalar? source 8 value true = some (blockScalar source 8 value true) ∧
    ∃ before under after, source = before ++ (under ++ after) ∧ byteLength before = 8 ∧
      (blockScalar source 8 value true).span = .ofLength 8 (byteLength under) ∧
      (true → (blockScalar source 8 value true).patchable → Reproduces before under after value) := by
  intro source value
  have boundary : Text.IsBoundary source 8 :=
    ⟨"v: |\r\n  ".toList, "6.x # old\r\n \t\r\n    7.x \r\n\r\nw: 1".toList, by decide, by decide⟩
  exact ⟨boundary, by decide +kernel, blockScalar_reproduces boundary value true⟩

end Repin.Yaml.ScalarPlace
