import Repin.Proofs.Text.Blank
import Repin.Proofs.Text.Bytes
import Repin.Proofs.Text.Split
import Repin.Text.Lines
/-!
# Lines of a text

Each line but the last one ends with its only line feed. What stands behind a character that is not
blank is stripped of its terminator alone.
-/
namespace Repin.Text

variable {as bs cs line rest : List Char} {c last : Char} {ls rows : List (List Char)}

inductive Lines : List Char → List (List Char) → Prop where
  | nil : Lines [] []
  | last {line : List Char} : line ≠ [] → '\n' ∉ line → Lines line [line]
  | cons {line rest : List Char} {ls : List (List Char)} :
    '\n' ∉ line → Lines rest ls → Lines (line ++ '\n' :: rest) ((line ++ ['\n']) :: ls)

theorem terminatedLines_append (h : '\n' ∉ line) :
    terminatedLines (line ++ '\n' :: rest) = (line ++ ['\n']) :: terminatedLines rest := by
  induction line with
  | nil => simp [terminatedLines]
  | cons c line ih =>
    simp only [List.mem_cons, not_or] at h
    obtain ⟨other, tail⟩ := h
    simp [terminatedLines, ih tail, Ne.symm other]

theorem terminatedLines_eq_singleton (hn : line ≠ []) (h : '\n' ∉ line) :
    terminatedLines line = [line] := by
  induction line with
  | nil => contradiction
  | cons c line ih =>
    simp only [List.mem_cons, not_or] at h
    obtain ⟨other, tail⟩ := h
    cases line with
    | nil => simp [terminatedLines, Ne.symm other]
    | cons d line => rw [terminatedLines, if_neg (Ne.symm other), ih (by simp) tail]

theorem Lines.terminatedLines_eq (h : Lines cs ls) : terminatedLines cs = ls := by
  induction h with
  | nil => rfl
  | last ne inside => exact terminatedLines_eq_singleton ne inside
  | cons inside _ ih => rw [terminatedLines_append inside, ih]

theorem lines_terminatedLines (cs : List Char) : Lines cs (terminatedLines cs) := by
  have ⟨ls, h⟩ : ∃ ls, Lines cs ls := by
    induction cs with
    | nil => exact ⟨[], .nil⟩
    | cons c cs ih =>
      have ⟨ls, tail⟩ := ih
      by_cases hc : c = '\n'
      case pos =>
        subst hc
        exact ⟨_, .cons (List.not_mem_nil) tail⟩
      case neg =>
        cases tail with
        | nil => exact ⟨_, .last (by simp) (by simpa using Ne.symm hc)⟩
        | last _ inside => exact ⟨_, .last (by simp) (by simp [Ne.symm hc, inside])⟩
        | @cons line _ _ inside tail =>
          exact ⟨_, @Lines.cons (c :: line) _ _ (by simp [Ne.symm hc, inside]) tail⟩
  rwa [h.terminatedLines_eq]

-- A line behind which others stand is whole.
theorem Lines.exists_first {l : List Char} (h : Lines cs (l :: ls)) (hr : ls ≠ []) :
    ∃ line rest, l = line ++ ['\n'] ∧ '\n' ∉ line ∧ Lines rest ls := by
  cases h with
  | last => contradiction
  | @cons line rest _ inside behind => exact ⟨line, rest, rfl, inside, behind⟩

theorem Lines.flatten_eq (h : Lines cs ls) : ls.flatten = cs := by
  rw [← h.terminatedLines_eq, flatten_terminatedLines]

theorem Lines.of_append (h : Lines cs (ls ++ rows)) : Lines rows.flatten rows := by
  induction ls generalizing cs with
  | nil =>
    rw [List.nil_append] at h
    rwa [h.flatten_eq]
  | cons l ls ih =>
    by_cases hr : ls ++ rows = []
    case pos =>
      rw [(List.append_eq_nil_iff.mp hr).right]
      exact .nil
    case neg =>
      obtain ⟨_, _, _, _, behind⟩ := Lines.exists_first h hr
      exact ih behind

-- Whole lines are the first lines of every text that starts with them.
theorem terminatedLines_flatten_append (h : Lines cs (ls ++ rows)) (hr : rows ≠ [])
    (tail : List Char) : terminatedLines (ls.flatten ++ tail) = ls ++ terminatedLines tail := by
  induction ls generalizing cs with
  | nil => rfl
  | cons l ls ih =>
    obtain ⟨line, rest, rfl, inside, behind⟩ := h.exists_first (by simp [hr])
    simp only [List.flatten_cons, List.append_assoc, List.cons_append, List.nil_append]
    rw [terminatedLines_append inside, ih behind]

theorem stripLast_append (h : bs ≠ []) : stripLast last (as ++ bs) = as ++ stripLast last bs := by
  induction as with
  | nil => rfl
  | cons a as ih =>
    have ne : as ++ bs ≠ [] := by simp [h]
    rw [List.cons_append, List.cons_append, ← ih]
    cases hs : as ++ bs with
    | nil => contradiction
    | cons => rfl

-- The pieces between line feeds are the whole lines without theirs, and what is behind them.
theorem splitAt_flatten_append (h : Lines cs (ls ++ rows)) (hr : rows ≠ []) {tail : List Char}
    (ht : '\n' ∉ tail) : splitAt '\n' (ls.flatten ++ tail) = ls.map (stripLast '\n') ++ [tail] := by
  induction ls generalizing cs with
  | nil => exact splitAt_eq_singleton ht
  | cons l ls ih =>
    obtain ⟨line, rest, rfl, inside, behind⟩ := h.exists_first (by simp [hr])
    have stripped : stripLast '\n' (line ++ ['\n']) = line := by
      rw [stripLast_append (by simp)]
      exact List.append_nil line
    simp only [List.flatten_cons, List.append_assoc, List.cons_append, List.nil_append]
    rw [splitAt_append_separator inside, ih behind, List.map_cons, stripped, List.cons_append]

theorem stripLast_eq_self (h : ∀ c ∈ cs.getLast?, c ≠ last) : stripLast last cs = cs := by
  induction cs with
  | nil => rfl
  | cons c cs ih =>
    cases cs with
    | nil => simp [stripLast, h c rfl]
    | cons d cs => rw [stripLast, ih (by simpa using h)]

theorem stripLast_append_of_ne (h : ∀ c ∈ as.getLast?, c ≠ last) (bs : List Char) :
    stripLast last (as ++ bs) = as ++ stripLast last bs := by
  by_cases hb : bs = []
  case pos =>
    rw [hb, List.append_nil, stripLast_eq_self h]
    simp [stripLast]
  case neg => exact stripLast_append hb

theorem stripLast_append_of_printed (h : ∀ c ∈ as.getLast?, isBlank c = false) (hl : isBlank last)
    (bs : List Char) : stripLast last (as ++ bs) = as ++ stripLast last bs := by
  apply stripLast_append_of_ne
  rintro c hc rfl
  simp [h c hc] at hl

theorem stripTerminator_append (h : ∀ c ∈ as.getLast?, isBlank c = false) (bs : List Char) :
    stripTerminator (as ++ bs) = as ++ stripTerminator bs := by
  unfold stripTerminator
  rw [stripLast_append_of_printed h (by decide), stripLast_append_of_printed h (by decide)]

theorem exists_append_stripLast (last : Char) (cs : List Char) :
    ∃ tail, cs = stripLast last cs ++ tail ∧ ∀ c ∈ tail, c = last := by
  fun_induction stripLast last cs
  case case1 => exact ⟨[], by simp⟩
  case case2 => exact ⟨[last], by simp⟩
  case case3 => exact ⟨[], by simp⟩
  case case4 c d cs ih =>
    obtain ⟨tail, parts, same⟩ := ih
    exact ⟨tail, by rw [List.cons_append, ← parts], same⟩

theorem exists_append_stripTerminator (line : List Char) :
    ∃ tail, line = stripTerminator line ++ tail ∧ ∀ c ∈ tail, isBlank c := by
  have ⟨feed, hf, ofFeed⟩ := exists_append_stripLast '\n' line
  have ⟨ret, hr, ofReturn⟩ := exists_append_stripLast '\r' (stripLast '\n' line)
  refine ⟨ret ++ feed, ?whole, ?blank⟩
  case whole => rw [stripTerminator, ← List.append_assoc, ← hr, ← hf]
  case blank =>
    intro c hc
    rcases List.mem_append.mp hc with hc | hc
    case inl => exact ofReturn c hc ▸ by decide
    case inr => exact ofFeed c hc ▸ by decide

theorem newline_not_mem_stripTerminator (h : Lines cs ls) (hl : line ∈ ls) :
    '\n' ∉ stripTerminator line := by
  refine fun hm => absurd ((stripLast_isPrefix _ _).mem hm) ?_
  induction h with
  | nil => cases hl
  | last _ inside =>
    rw [List.mem_singleton.mp hl]
    exact fun hm => inside ((stripLast_isPrefix _ _).mem hm)
  | @cons line _ _ inside _ ih =>
    rcases List.mem_cons.mp hl with rfl | hl
    case inl => simpa [stripLast_append, stripLast] using inside
    case inr => exact ih hl

-- A line may start in another way without a change to where it ends.
theorem terminatedLines_of_start {start start' gap : List Char} {back : List (List Char)}
    (h : Lines cs ((start ++ gap) :: back)) (hs : '\n' ∉ start) (hs' : '\n' ∉ start')
    (ne : start' ≠ []) :
    terminatedLines (start' ++ (gap ++ back.flatten)) = (start' ++ gap) :: back := by
  generalize whole : start ++ gap = line at h
  cases h with
  | last _ inside =>
    subst whole
    simp only [List.mem_append, not_or] at inside
    rw [List.flatten_nil, List.append_nil]
    exact terminatedLines_eq_singleton (by simp [ne]) (by simp [hs', inside.right])
  | @cons line rest _ inside behind =>
    -- the line feed stands in the gap
    have ⟨feed, hg⟩ : ∃ feed, gap = feed ++ ['\n'] := by
      rcases List.append_eq_append_iff.mp whole with ⟨feed, _, hg⟩ | ⟨feed, hstart, hg⟩
      case inl => exact ⟨feed, hg⟩
      case inr =>
        cases feed with
        | nil => exact ⟨[], hg.symm⟩
        | cons c feed =>
          obtain ⟨rfl, _⟩ := List.cons.inj hg
          simp [hstart] at hs
    subst hg
    rw [← List.append_assoc, List.append_cancel_right_eq] at whole
    subst whole
    simp only [List.mem_append, not_or] at inside
    have whole : start' ++ (feed ++ ['\n'] ++ back.flatten) = (start' ++ feed) ++ '\n' :: rest := by
      simp [behind.flatten_eq]
    rw [whole, terminatedLines_append (by simp [hs', inside.right]), behind.terminatedLines_eq,
      List.append_assoc]

theorem stripTerminator_isPrefix (line : List Char) : stripTerminator line <+: line :=
  (stripLast_isPrefix _ _).trans (stripLast_isPrefix _ _)

-- A text behind which a line starts.
def EndsLine (cs : List Char) : Prop :=
  cs = [] ∨ ∃ front, cs = front ++ ['\n']

-- A text in front of which a line ends.
def StartsEnd (cs : List Char) : Prop :=
  ∀ c ∈ cs.takeWhile (· ≠ '\n'), c = '\r'

theorem EndsLine.of_append (h : EndsLine (as ++ bs)) : EndsLine bs := by
  obtain none | ⟨front, hf⟩ := h
  · exact .inl (List.append_eq_nil_iff.mp none).right
  · cases hb : bs.getLast? with
    | none => exact .inl (List.getLast?_eq_none_iff.mp hb)
    | some c =>
      have last := congrArg List.getLast? hf
      rw [List.getLast?_append, hb] at last
      obtain ⟨init, hi⟩ := List.getLast?_eq_some_iff.mp hb
      exact .inr ⟨init, by simpa [hi] using last⟩

theorem StartsEnd.cases (h : StartsEnd cs) : (∀ c ∈ cs, c = '\r') ∨
    ∃ line below, cs = line ++ '\n' :: below ∧ ∀ c ∈ line, c = '\r' := by
  have parts := List.takeWhile_append_dropWhile (p := (· ≠ '\n')) (l := cs)
  have first := List.head?_dropWhile_not (· ≠ '\n') cs
  cases hd : cs.dropWhile (· ≠ '\n') with
  | nil =>
    rw [hd, List.append_nil] at parts
    exact .inl (parts ▸ h)
  | cons c below =>
    rw [hd] at first parts
    have feed : c = '\n' := by simpa using first
    exact .inr ⟨_, below, feed ▸ parts.symm, h⟩

-- The last line is what no line feed follows.
theorem exists_endsLine (cs : List Char) :
    ∃ above, cs = above ++ lastLine cs ∧ EndsLine above ∧ '\n' ∉ lastLine cs := by
  fun_induction lastLine cs
  case case1 => exact ⟨[], rfl, .inl rfl, List.not_mem_nil⟩
  case case2 c cs inside ih =>
    obtain ⟨above, whole, ends, outside⟩ := ih
    refine ⟨c :: above, by rw [List.cons_append, ← whole], .inr ?_, outside⟩
    obtain rfl | ⟨front, rfl⟩ := ends
    · rw [List.nil_append] at whole
      exact absurd (whole ▸ inside) outside
    · exact ⟨c :: front, rfl⟩
  case case3 cs outside => exact ⟨['\n'], rfl, .inr ⟨[], rfl⟩, outside⟩
  case case4 c cs outside other => exact ⟨[], rfl, .inl rfl, by simp [outside, Ne.symm other]⟩

-- What holds no line feed is the last line behind any line.
theorem lastLine_append_of_not_mem {line : List Char} (front : List Char) (h : '\n' ∉ line) :
    lastLine (front ++ '\n' :: line) = line := by
  induction front with
  | nil => rw [List.nil_append, lastLine, if_neg h, if_pos rfl]
  | cons c front ih => rw [List.cons_append, lastLine, if_pos (by simp), ih]

theorem lastLine_eq_self (h : '\n' ∉ cs) : lastLine cs = cs := by
  cases cs with
  | nil => rfl
  | cons c cs =>
    rw [List.mem_cons, not_or] at h
    rw [lastLine, if_neg h.right, if_neg (Ne.symm h.left)]

theorem lineStartOf_add_lastLine (cs : List Char) :
    lineStartOf cs + byteLength (lastLine cs) = byteLength cs := by
  have ⟨above, whole, _⟩ := exists_endsLine cs
  have length := congrArg byteLength whole
  rw [byteLength_append] at length
  unfold lineStartOf
  omega

-- The offsets at which a line starts, and those at which one ends.
def IsLineStart (cs : List Char) (n : Nat) : Prop :=
  ∃ above rest, cs = above ++ rest ∧ byteLength above = n ∧ EndsLine above

def IsLineEnd (cs : List Char) (n : Nat) : Prop :=
  ∃ front behind, cs = front ++ behind ∧ byteLength front = n ∧ StartsEnd behind

theorem lineStart?_append (before after : List Char) :
    lineStart? (before ++ after) (byteLength before) = some (lineStartOf before) := by
  simp [lineStart?, splitAtByte_append]

theorem lineEnd?_append (before after : List Char) :
    lineEnd? (before ++ after) (byteLength before) = some (lineEndOf before after) := by
  simp [lineEnd?, splitAtByte_append]

theorem exists_lineStart? {n : Nat} (h : IsBoundary cs n) :
    ∃ start, lineStart? cs n = some start ∧ start ≤ n ∧ IsLineStart cs start := by
  obtain ⟨before, after, rfl, rfl⟩ := h
  have ⟨above, whole, ends, _⟩ := exists_endsLine before
  have start := lineStartOf_add_lastLine before
  have length := congrArg byteLength whole
  rw [byteLength_append] at length
  refine ⟨lineStartOf before, lineStart?_append before after, by omega, above,
    lastLine before ++ after, ?_, by omega, ends⟩
  rw [← List.append_assoc, ← whole]

-- The end of a line is cut off, with all that is below.
theorem exists_startsEnd (cs : List Char) : ∃ below,
    cs = stripLast '\r' (cs.takeWhile (· ≠ '\n')) ++ below ∧ StartsEnd below := by
  have ⟨returns, line, ofReturns⟩ := exists_append_stripLast '\r' (cs.takeWhile (· ≠ '\n'))
  have parts := List.takeWhile_append_dropWhile (p := (· ≠ '\n')) (l := cs)
  refine ⟨returns ++ cs.dropWhile (· ≠ '\n'), by rw [← List.append_assoc, ← line, parts], ?_⟩
  have kept : ∀ c ∈ returns, decide (c ≠ '\n') := by
    intro c hc
    rw [ofReturns c hc]
    decide
  have none : (cs.dropWhile (· ≠ '\n')).takeWhile (· ≠ '\n') = [] := by
    have first := List.head?_dropWhile_not (· ≠ '\n') cs
    cases hd : cs.dropWhile (· ≠ '\n') with
    | nil => rfl
    | cons c below =>
      rw [hd] at first
      exact List.takeWhile_cons_of_neg (by simpa using first)
  rw [StartsEnd, List.takeWhile_append_of_pos kept, none, List.append_nil]
  exact ofReturns

theorem exists_lineEnd? {n : Nat} (h : IsBoundary cs n) :
    ∃ stop, lineEnd? cs n = some stop ∧ n ≤ stop ∧ IsLineEnd cs stop := by
  obtain ⟨before, after, rfl, rfl⟩ := h
  have ⟨below, rest, starts⟩ := exists_startsEnd after
  refine ⟨lineEndOf before after, lineEnd?_append before after, by simp [lineEndOf],
    before ++ stripLast '\r' (after.takeWhile (· ≠ '\n')), below, ?_, by simp [lineEndOf], starts⟩
  rw [List.append_assoc, ← rest]

-- A line feed stands in front of every line that starts behind a place.
theorem IsLineStart.exists_of_lt {front back : List Char} {n : Nat} (h : IsLineStart (front ++ back) n)
    (lt : byteLength front < n) :
    ∃ between rest, back = between ++ rest ∧ '\n' ∈ between ∧
      byteLength front + byteLength between = n := by
  obtain ⟨above, rest, whole, rfl, ends⟩ := h
  obtain ⟨between, rfl, hb⟩ := exists_append_of_byteLength_le whole (Nat.le_of_lt lt)
  rw [byteLength_append] at lt ⊢
  refine ⟨between, rest, hb, ?_, rfl⟩
  obtain none | ⟨line, hl⟩ := ends
  · simp [(List.append_eq_nil_iff.mp none).right] at lt
  · have ne : between ≠ [] := by
      rintro rfl
      simp at lt
    have last := congrArg List.getLast? hl
    rw [List.getLast?_append, List.getLast?_append] at last
    cases hg : between.getLast? with
    | none => exact absurd (List.getLast?_eq_none_iff.mp hg) ne
    | some c =>
      rw [hg] at last
      cases last
      exact List.mem_of_getLast? hg

theorem byteLength_eq_length (h : ∀ c ∈ cs, c.toNat < 0x80) : byteLength cs = cs.length := by
  induction cs with
  | nil => rfl
  | cons c cs ih =>
    obtain ⟨hc, h⟩ := List.forall_mem_cons.mp h
    have one : c.utf8Size = 1 :=
      Char.utf8Size_eq_one_iff.mpr (UInt32.le_iff_toNat_le.mpr (Nat.le_of_lt_succ hc))
    rw [byteLength_cons, one, ih h, List.length_cons, Nat.add_comm]

end Repin.Text
