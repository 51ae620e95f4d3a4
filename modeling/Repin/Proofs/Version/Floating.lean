import Repin.Proofs.Except
import Repin.Proofs.Text.Blank
import Repin.Proofs.Version.Ranking
import Repin.Proofs.Version.Semver
/-!
# Lists of floating expressions

An expression written for a channel starts with the numbers of the channel, so what is read back from
it reaches the channel, whatever an SDK version has behind its numbers.
-/
namespace Repin

variable {c : Channel} {cs : List Char}

theorem isBlank_of_isLabelChar {d : Char} (h : isLabelChar d) : Text.isBlank d = false := by
  rcases Bool.or_eq_true_iff.mp h with letter | hyphen
  case inl => exact Text.isBlank_of_isAlphanum letter
  case inr =>
    cases eq_of_beq hyphen
    decide

theorem Wildcard.read?_text (w : Wildcard) : '.' ∉ w.text.toList ∧
    Text.readNumber w.text.toList = none ∧ read? w.text.toList = some w := by
  cases w <;> decide

namespace FloatingExpr

variable {e : FloatingExpr} {m n : UInt64}

theorem addLabels_numbers {labels : Option (List Char)} {e' : FloatingExpr}
    (h : addLabels e labels = .ok e') :
    e'.majorNumber = e.majorNumber ∧ e'.minorNumber? = e.minorNumber? := by
  unfold addLabels at h
  split at h
  case h_1 => cases h; exact ⟨rfl, rfl⟩
  case h_2 =>
    split at h
    case h_1 => split at h <;> cases h; exact ⟨rfl, rfl⟩
    case h_2 => cases h

-- Two leading numbers are the numbers of the expression, whatever stands in the third place.
theorem readCore_numbers {rest : List (List Char)} (h : readCore cs = .ok e)
    (hs : Text.splitAt '.' cs = (Text.writeNumber m).toList :: (Text.writeNumber n).toList :: rest) :
    e.majorNumber = m ∧ e.minorNumber? = some n := by
  unfold readCore at h
  rw [hs] at h
  cases rest with
  | nil =>
    simp [readSegment, Text.readNumber_writeNumber, bind, Except.bind, pure, Except.pure] at h
    exact h ▸ ⟨rfl, rfl⟩
  | cons third rest =>
    cases rest with
    | nil =>
      simp only [readSegment, Text.readNumber_writeNumber, bind, Except.bind] at h
      split at h
      case h_1 => cases h; exact ⟨rfl, rfl⟩
      case h_2 => cases h; exact ⟨rfl, rfl⟩
      case h_3 => split at h <;> cases h; exact ⟨rfl, rfl⟩
    | cons => cases h

theorem read_numbers (tail : List Char) (ht : tail = [] ∨ ∃ rest, tail = '.' :: rest)
    (h : read ((Text.writeNumber m).toList ++ '.' :: ((Text.writeNumber n).toList ++ tail)) = .ok e) :
    e.majorNumber = m ∧ e.minorNumber? = some n := by
  have dot (k : UInt64) : '.' ∉ (Text.writeNumber k).toList := Text.not_mem_writeNumber (by decide)
  have segments {tail : List Char} (ht : tail = [] ∨ ∃ rest, tail = '.' :: rest) :
      ∃ rest, Text.splitAt '.' ((Text.writeNumber m).toList ++ '.' :: ((Text.writeNumber n).toList ++
        tail)) = (Text.writeNumber m).toList :: (Text.writeNumber n).toList :: rest := by
    rw [Text.splitAt_append_separator (dot m)]
    obtain rfl | ⟨rest, rfl⟩ := ht
    · exact ⟨[], by rw [List.append_nil, Text.splitAt_eq_singleton (dot n)]⟩
    · exact ⟨_, by rw [Text.splitAt_append_separator (dot n)]⟩
  unfold read at h
  obtain ⟨e', he, h⟩ := bind_eq_ok.mp h
  have ⟨first, second⟩ := addLabels_numbers h
  rw [first, second]
  cases hs : Text.splitOnce '-' _ with
  | none =>
    rw [hs] at he
    have ⟨rest, split⟩ := segments ht
    exact readCore_numbers he split
  | some parts =>
    obtain ⟨core, labels⟩ := parts
    rw [hs] at he
    -- the numbers lie before the first hyphen
    have hyphen (k : UInt64) : '-' ∉ (Text.writeNumber k).toList :=
      Text.not_mem_writeNumber (by decide)
    have hcore := Text.takeWhile_of_splitOnce hs
    rw [Text.takeWhile_append_of_not_mem (hyphen m), List.takeWhile_cons_of_pos (by decide),
      Text.takeWhile_append_of_not_mem (hyphen n)] at hcore
    have tail' : tail.takeWhile (· ≠ '-') = [] ∨ ∃ rest, tail.takeWhile (· ≠ '-') = '.' :: rest := by
      obtain rfl | ⟨rest, rfl⟩ := ht
      · exact .inl rfl
      · exact .inr ⟨_, List.takeWhile_cons_of_pos (by decide)⟩
    have ⟨rest, split⟩ := segments tail'
    rw [hcore] at split
    exact readCore_numbers he split

theorem read_major (h : read (Text.writeNumber m).toList = .ok e) : e = .major m := by
  have hyphen : '-' ∉ (Text.writeNumber m).toList := Text.not_mem_writeNumber (by decide)
  have dot : '.' ∉ (Text.writeNumber m).toList := Text.not_mem_writeNumber (by decide)
  simp [read, Text.splitOnce_eq_none hyphen, readCore, Text.splitAt_eq_singleton dot, readSegment,
    Text.readNumber_writeNumber, addLabels, bind, Except.bind, pure, Except.pure] at h
  exact h.symm

theorem read_anyMinor {w : Wildcard}
    (h : read ((Text.writeNumber m).toList ++ '.' :: w.text.toList) = .ok e) :
    e = .anyMinor m w := by
  have hyphen : '-' ∉ (Text.writeNumber m).toList := Text.not_mem_writeNumber (by decide)
  have dot : '.' ∉ (Text.writeNumber m).toList := Text.not_mem_writeNumber (by decide)
  have outside : '-' ∉ (Text.writeNumber m).toList ++ '.' :: w.text.toList := by
    cases w <;> simp [hyphen, Wildcard.text]
  have wild := w.read?_text
  simp [read, Text.splitOnce_eq_none outside, readCore, Text.splitAt_append_separator dot,
    Text.splitAt_eq_singleton wild.left, readSegment, Text.readNumber_writeNumber, wild, addLabels,
    bind, Except.bind, pure, Except.pure] at h
  exact h.symm

theorem isAtLeast_of_numbers (hm : e.majorNumber = c.major) (hn : e.minorNumber? = some c.minor) :
    e.isAtLeast c := by
  simp [isAtLeast, hn, hm, c.isReachedBy_self]

-- An expression is written in one word.
theorem isBlank_of_mem_upgraded : ∀ d ∈ (e.upgraded c).toList, Text.isBlank d = false := by
  have number (n : UInt64) : ∀ d ∈ (Text.writeNumber n).toList, Text.isBlank d = false :=
    fun d hd => Text.isBlank_of_isDigit (Text.isDigit_of_mem_writeNumber hd)
  have channel : ∀ d ∈ c.render.toList, Text.isBlank d = false := by
    rw [Channel.toList_render, List.forall_mem_append, List.forall_mem_cons]
    exact ⟨number _, rfl, number _⟩
  have dot : ∀ d ∈ ".".toList, Text.isBlank d = false := List.forall_mem_singleton.mpr rfl
  have wildcard (w : Wildcard) : ∀ d ∈ w.text.toList, Text.isBlank d = false := by
    cases w <;> exact List.forall_mem_singleton.mpr rfl
  have ending (s : BandSuffix) : ∀ d ∈ s.text.toList, Text.isBlank d = false := by
    cases s <;> exact List.forall_mem_cons.mpr ⟨rfl, List.forall_mem_singleton.mpr rfl⟩
  cases e <;> simp only [upgraded, String.toList_append, List.forall_mem_append]
  case major => exact number _
  case anyMinor m w => exact ⟨⟨number _, dot⟩, wildcard w⟩
  case minor => exact channel
  case anyPatch m n w => exact ⟨⟨channel, dot⟩, wildcard w⟩
  case band m n b suffix => exact ⟨⟨⟨channel, dot⟩, number _⟩, ending suffix⟩
  case full =>
    intro d hd
    obtain h | rfl | rfl := Semver.mem_render hd
    · exact isBlank_of_isLabelChar h
    · decide
    · decide

theorem newline_not_mem_upgraded : '\n' ∉ (e.upgraded c).toList :=
  fun h => absurd (isBlank_of_mem_upgraded _ h) (by decide)

theorem upgraded_ne_nil : (e.upgraded c).toList ≠ [] := by
  cases e
  case major => exact Text.writeNumber_ne_nil
  all_goals simp [upgraded, Channel.toList_render, Semver.toList_render, Semver.coreText]

-- What is read back from the text for a channel reaches the channel.
theorem isAtLeast_of_read_upgraded {e' : FloatingExpr}
    (h : read (e.upgraded c).toList = .ok e') : e'.isAtLeast c := by
  cases e
  case major m =>
    have heq : e' = .major c.major := read_major h
    simp [heq, isAtLeast, minorNumber?, majorNumber]
  case anyMinor m w =>
    have heq : e' = .anyMinor c.major w := read_anyMinor (by simpa [upgraded] using h)
    simp [heq, isAtLeast, minorNumber?, majorNumber]
  case minor m n =>
    obtain ⟨hm, hn⟩ := read_numbers (e := e') (m := c.major) (n := c.minor) [] (.inl rfl)
      (by simpa [upgraded, Channel.toList_render] using h)
    exact isAtLeast_of_numbers hm hn
  case anyPatch m n w =>
    obtain ⟨hm, hn⟩ := read_numbers (e := e') (m := c.major) (n := c.minor)
      ('.' :: w.text.toList)
      (.inr ⟨_, rfl⟩) (by simpa [upgraded, Channel.toList_render] using h)
    exact isAtLeast_of_numbers hm hn
  case band m n b suffix =>
    obtain ⟨hm, hn⟩ := read_numbers (e := e') (m := c.major) (n := c.minor)
      ('.' :: ((Text.writeNumber c.bandNumber).toList ++ suffix.text.toList))
      (.inr ⟨_, rfl⟩) (by simpa [upgraded, Channel.toList_render] using h)
    exact isAtLeast_of_numbers hm hn
  case full m n p labels =>
    obtain ⟨hm, hn⟩ := read_numbers (e := e') (m := c.major) (n := c.minor)
      ('.' :: ((Text.writeNumber c.sdk.patch).toList ++ (c.sdk.labelText ++ c.sdk.buildText)))
      (.inr ⟨_, rfl⟩)
      (by simpa [upgraded, Semver.toList_render, Semver.coreText, Channel.major, Channel.minor] using h)
    exact isAtLeast_of_numbers hm hn

end FloatingExpr
namespace FloatingLine

variable {line : List Char} {l : FloatingLine}

theorem splitComment_isPrefix (line : List Char) : (splitComment line).1 <+: line := by
  unfold splitComment
  split
  case isTrue => exact (Text.trimEnd_isPrefix _).trans (List.takeWhile_prefix _)
  case isFalse => exact Text.trimEnd_isPrefix line

-- A line is blank, or it was cut in three around an expression that reads.
theorem read_eq_ok (h : read line = .ok l) :
    l = .blank (String.ofList line) ∨ ∃ indent written rest e, l = .entry indent written rest e ∧
      indent.toList ++ (written.toList ++ rest.toList) = line ∧
      FloatingExpr.parse written = .ok e.expr := by
  unfold read at h
  have body := List.prefix_iff_eq_append.mp <|
    (splitComment_isPrefix _).trans (Text.stripLast_isPrefix '\r' line)
  dsimp only at h
  split at h
  case isTrue =>
    cases h
    exact .inl rfl
  case isFalse =>
    obtain ⟨expr, he, h⟩ := bind_eq_ok.mp h
    cases h
    refine .inr ⟨_, _, _, _, rfl, ?cut, he⟩
    have parts := List.takeWhile_append_dropWhile (p := Text.isBlank)
      (l := (splitComment (Text.stripLast '\r' line)).1)
    simp only [String.toList_ofList]
    rw [← List.append_assoc, Text.trimStart, parts, body]

-- An expression stands behind all the blanks that its line starts with.
theorem indent_of_read {indent written rest : String} {e : FloatingEntry}
    (h : read line = .ok (.entry indent written rest e)) :
    indent = String.ofList (line.takeWhile Text.isBlank) ∧ ∃ d ∈ line, Text.isBlank d = false := by
  unfold read at h
  have body := (splitComment_isPrefix _).trans (Text.stripLast_isPrefix '\r' line)
  dsimp only at h
  split at h
  case isTrue => cases h
  case isFalse printed =>
    obtain ⟨expr, he, h⟩ := bind_eq_ok.mp h
    cases h
    generalize (splitComment (Text.stripLast '\r' line)).1 = body at *
    obtain ⟨tail, rfl⟩ := body
    have lead : ∀ d ∈ body.takeWhile Text.isBlank, Text.isBlank d :=
      List.all_eq_true.mp List.all_takeWhile
    have parts := List.takeWhile_append_dropWhile (p := Text.isBlank) (l := body)
    have first := List.head?_dropWhile_not Text.isBlank body
    generalize body.takeWhile Text.isBlank = lead, hb : body.dropWhile Text.isBlank = behind at *
    cases behind with
    | nil => simp [Text.trimStart, hb] at printed
    | cons d ds =>
      replace first : ∀ c, (d :: ds ++ tail).head? = some c → Text.isBlank c = false := by
        intro c hc
        cases hc
        exact first
      rw [← parts, List.append_assoc, Text.takeWhile_isBlank_append lead first]
      exact ⟨rfl, d, by simp, first d rfl⟩

theorem text_read (h : read line = .ok l) : l.text.toList = line := by
  obtain rfl | ⟨indent, written, rest, e, rfl, cut, _⟩ := read_eq_ok h
  · simp [text]
  · simp [text, cut]

-- The line with its expression written for a channel.
def moved (c : Channel) (l : FloatingLine) : List Char :=
  match l with
  | blank text => text.toList
  | entry indent _ rest e => indent.toList ++ ((e.expr.upgraded c).toList ++ rest.toList)

end FloatingLine

namespace FloatingList

variable {text : String} {l : FloatingList} {newline : Newline}

theorem lines_of_parse (h : parse text = .ok l) :
    List.Forall₂ (fun line l => FloatingLine.read line = .ok l)
      (Text.splitAt '\n' text.toList) l.lines := by
  unfold parse at h
  obtain ⟨lines, hl, h⟩ := bind_eq_ok.mp h
  split at h <;> cases h
  exact mapM_eq_ok.mp hl

theorem map_text_lines (h : parse text = .ok l) :
    l.lines.map (fun l => l.text.toList) = Text.splitAt '\n' text.toList := by
  have read := lines_of_parse h
  generalize Text.splitAt '\n' text.toList = cut, l.lines = lines at read ⊢
  induction read with
  | nil => rfl
  | cons hr _ ih => rw [List.map_cons, ih, FloatingLine.text_read hr]

-- Every line of a list is what is read from its own text.
theorem read_text_of_mem {line : FloatingLine} (h : parse text = .ok l) (hm : line ∈ l.lines) :
    FloatingLine.read line.text.toList = .ok line := by
  have ⟨piece, _, hr⟩ := exists_of_forall₂_right (lines_of_parse h) hm
  rwa [FloatingLine.text_read hr]

theorem parse_text (h : parse text = .ok l) : l.text = text := by
  apply String.toList_inj.mp
  rw [FloatingList.text, String.toList_intercalate, List.map_map]
  change ['\n'].intercalate (l.lines.map fun l => l.text.toList) = _
  rw [map_text_lines h, Text.intercalate_splitAt]

-- In a list of several entries the last indentation is that of a line behind the first one.
theorem exists_last_indent {first : List Char} {rest : List (List Char)} (h : parse text = .ok l)
    (several : l.isMultiLine) (cut : Text.splitAt '\n' text.toList = first :: rest) :
    ∃ line ∈ rest, (l.lines.filterMap FloatingLine.indent?).getLast?.getD ""
      = String.ofList (line.takeWhile Text.isBlank) ∧ ∃ d ∈ line, Text.isBlank d = false := by
  have read := lines_of_parse h
  have several : 1 < (l.lines.filterMap FloatingLine.entry?).length := of_decide_eq_true several
  rw [cut] at read
  generalize l.lines = lines at read several ⊢
  cases read with
  | @cons _ head _ tail _ read =>
    have ne : tail.filterMap FloatingLine.indent? ≠ [] := by
      intro none
      have blank : tail.filterMap FloatingLine.entry? = [] := by
        rw [List.filterMap_eq_nil_iff] at none ⊢
        intro line hl
        have := none line hl
        cases line with
        | blank => rfl
        | entry => cases this
      rw [List.filterMap_cons] at several
      split at several <;> simp [blank] at several
    have ⟨indent, last⟩ := Option.ne_none_iff_exists'.mp (mt List.getLast?_eq_none_iff.mp ne)
    have ⟨line, hl, hi⟩ := List.mem_filterMap.mp (List.mem_of_getLast? last)
    have ⟨piece, hp, hr⟩ := exists_of_forall₂_right read hl
    have whole : ((head :: tail).filterMap FloatingLine.indent?).getLast? = some indent := by
      rw [List.filterMap_cons]
      split
      · exact last
      · rw [List.getLast?_cons, last]
        rfl
    rw [whole, Option.getD_some]
    cases line with
    | blank => cases hi
    | entry indent' written behind e =>
      cases hi
      exact ⟨piece, hp, FloatingLine.indent_of_read hr⟩

theorem entries_ne_nil (h : parse text = .ok l) : l.entries ≠ [] := by
  unfold parse at h
  obtain ⟨lines, hl, h⟩ := bind_eq_ok.mp h
  split at h
  case isTrue => cases h
  case isFalse ne =>
    cases h
    simpa [entries] using ne

theorem toList_replaceOnly (l : FloatingList) (c : Channel) :
    (l.replaceOnly c).toList = ['\n'].intercalate (l.lines.map (FloatingLine.moved c)) := by
  rw [replaceOnly, String.toList_intercalate, List.map_map]
  congr 1
  apply List.map_congr_left
  intro line _
  cases line <;>
    simp [FloatingLine.moved, FloatingLine.entry?, FloatingLine.withExpression, FloatingLine.text]

theorem newline_not_mem_moved {line : FloatingLine} (h : '\n' ∉ line.text.toList) :
    '\n' ∉ FloatingLine.moved c line := by
  cases line with
  | blank => exact h
  | entry indent written rest e =>
    simp only [FloatingLine.text, String.toList_append, List.mem_append, not_or] at h
    simp [FloatingLine.moved, h, FloatingExpr.newline_not_mem_upgraded]

theorem splitAt_replaceOnly (h : parse text = .ok l) :
    Text.splitAt '\n' (l.replaceOnly c).toList = l.lines.map (FloatingLine.moved c) := by
  have lines := map_text_lines h
  rw [toList_replaceOnly]
  apply Text.splitAt_intercalate
  case ne =>
    have := Text.splitOn_ne_nil (· == '\n') text.toList
    simpa [← lines] using this
  case h =>
    intro piece hp
    obtain ⟨line, hl, rfl⟩ := List.mem_map.mp hp
    apply newline_not_mem_moved
    have hm : line.text.toList ∈ Text.splitAt '\n' text.toList := lines ▸ List.mem_map_of_mem hl
    exact Text.not_mem_of_mem_splitAt hm

-- An expression for the channel in place of one below the channel is another text.
theorem replaceOnly_ne (h : parse text = .ok l) (hl : l.isAtLeast c = false) :
    l.replaceOnly c ≠ text := by
  intro heq
  have fixed := splitAt_replaceOnly (c := c) h
  rw [heq, ← map_text_lines h] at fixed
  cases hs : l.entries with
  | nil => exact entries_ne_nil h hs
  | cons e es =>
    have he : e ∈ l.lines.filterMap FloatingLine.entry? := by
      change e ∈ l.entries
      simp [hs]
    obtain ⟨line, hline, he⟩ := List.mem_filterMap.mp he
    have below : e.expr.isAtLeast c = false := by
      simp only [isAtLeast, hs, List.any_cons, Bool.or_eq_false_iff] at hl
      exact hl.left
    have parts := FloatingLine.read_eq_ok (read_text_of_mem h hline)
    obtain heq | ⟨indent, written, rest, e', rfl, _, parsed⟩ := parts
    · rw [heq] at he
      cases he
    · cases he
      have same := List.map_inj_left.mp fixed _ hline
      simp only [FloatingLine.text, FloatingLine.moved, String.toList_append, List.append_assoc,
        List.append_cancel_left_eq, List.append_cancel_right_eq] at same
      simp only [FloatingExpr.parse, same] at parsed
      have reached := FloatingExpr.isAtLeast_of_read_upgraded (mapError_eq_ok.mp parsed)
      simp [below] at reached

theorem upgraded_of_isAtLeast (h : l.isAtLeast c) : l.upgraded c newline = .ok l.text :=
  if_pos h

theorem upgraded_of_sole (below : l.isAtLeast c = false) (sole : l.isMultiLine = false) :
    l.upgraded c newline = .ok (l.replaceOnly c) := by
  simp [upgraded, below, sole]

-- A list of several entries below the channel gains a line in the style of its highest entry.
theorem upgraded_of_isMultiLine (newline : Newline) (h : parse text = .ok l) (several : l.isMultiLine)
    (below : l.isAtLeast c = false) (ranks : l.Ranks) : ∃ template s,
      l.highest? = .ok (some template) ∧ l.upgraded c newline = .ok s ∧
      s.toList = Text.trimEnd text.toList ++ (newline.text.toList ++
        (((l.lines.filterMap FloatingLine.indent?).getLast?.getD "").toList ++
          ((template.expr.upgraded c).toList ++ Text.trailing text.toList))) := by
  have ⟨template, highest⟩ := (highest?_eq_ok_iff (entries_ne_nil h)).mpr ranks
  refine ⟨template, _, highest, by rw [upgraded, below, several, appendLine, highest]; rfl, ?_⟩
  simp [parse_text h]

-- Several entries below the channel that cannot be ranked have no text for it.
theorem ranks_of_upgraded (h : parse text = .ok l) (below : l.isAtLeast c = false) {new : String}
    (hu : l.upgraded c newline = .ok new) : l.Ranks := by
  intro several
  obtain ⟨ranks, _⟩ | ⟨_, fault⟩ := highest?_cases (entries_ne_nil h)
  · exact ranks several
  · rw [upgraded, below, several, appendLine, fault] at hu
    cases hu

theorem exists_upgraded (c : Channel) (newline : Newline) (h : parse text = .ok l) (ranks : l.Ranks) :
    ∃ new, l.upgraded c newline = .ok new := by
  cases below : l.isAtLeast c with
  | true => exact ⟨_, upgraded_of_isAtLeast below⟩
  | false =>
    cases several : l.isMultiLine with
    | false => exact ⟨_, upgraded_of_sole below several⟩
    | true =>
      have ⟨_, new, _, hu, _⟩ := upgraded_of_isMultiLine newline h several below ranks
      exact ⟨new, hu⟩

theorem upgraded_ne {new : String} (h : parse text = .ok l) (below : l.isAtLeast c = false)
    (hu : l.upgraded c newline = .ok new) : new ≠ text := by
  cases several : l.isMultiLine with
  | false =>
    rw [upgraded_of_sole below several] at hu
    cases hu
    exact replaceOnly_ne h below
  | true =>
    have ranks := ranks_of_upgraded h below hu
    obtain ⟨_, _, _, hu', gained⟩ := upgraded_of_isMultiLine newline h several below ranks
    cases hu.symm.trans hu'
    rintro rfl
    have length := congrArg List.length gained
    have parts := congrArg List.length (Text.trimEnd_append_trailing new.toList)
    have line : 0 < newline.text.toList.length := by cases newline <;> decide
    simp only [List.length_append] at length parts
    omega

end FloatingList
end Repin
