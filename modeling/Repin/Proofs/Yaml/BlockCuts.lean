import Repin.Proofs.Span
import Repin.Proofs.Yaml.AppendedLine
/-!
# Block scalars are cut between characters

A block scalar is found by cutting its source at byte offsets. Here the cuts are taken one by one, as they
are made. From a marker between characters none of them lies outside of the text or inside of a
character, and the span that comes out does not end before it starts.

Main statement: `ScalarPlace.blockScalar?_append`.
-/
namespace Repin.Yaml.ScalarPlace

open Text (trim trimEnd stripTerminator terminatedLines linesFrom lastLine lineStartOf byteLength)

variable {before after source value line : List Char} {marker : Nat} {literal : Bool}

-- Reads lines as `blockLines` does, and cuts the indentation of each off by its bytes.
def blockLines? (indent : Nat) (stop : Nat) : List (Nat × List Char) → Option (List (List Char) × Nat)
  | [] => some ([], stop)
  | (offset, line) :: rest =>
    if (trim line).isEmpty then do
      let (lines, last) ← blockLines? indent stop rest
      return ([] :: lines, last)
    else if indentOf line < indent then
      some ([], stop)
    else do
      let (_, content) ← Text.splitAtByte indent line
      let (lines, last) ← blockLines? indent (offset + byteLength (trimEnd line)) rest
      return (content :: lines, last)

-- Finds a scalar as `blockScalar` does, and makes every cut of the source that this takes; `none` where
-- one of them fails, or where the span would end before it starts.
def blockScalar? (source : List Char) (marker : Nat) (value : List Char) (literal : Bool) :
    Option ScalarPlace := do
  let start ← Text.lineStart? source marker
  let margin ← Text.slice start marker source
  if value.isEmpty || start = 0 || !margin.all (· = ' ') then
    some (unknown marker)
  else do
    let indent := byteLength margin
    let above ← Text.slice 0 (start - 1) source
    if indent ≤ outerIndent above then
      some (unknown marker)
    else do
      let rest ← Text.slice start (byteLength source) source
      let body := (Text.linesWithOffsets rest).map fun (k, line) => (start + k, line)
      let (lines, last) ← blockLines? indent marker body
      let content := withoutLastEmpty lines
      let bare := withoutLastBreaks value
      let multi := 1 < content.length
      let patchable :=
        if literal then ['\n'].intercalate content = bare
        else !multi && content.head? == some bare
      let span ← (Span.of marker last).toOption
      return ⟨span, multi, patchable⟩

theorem byteLength_replicate_space (n : Nat) : byteLength (List.replicate n ' ') = n := by
  rw [Text.byteLength_eq_length (by simp +contextual [List.mem_replicate]), List.length_replicate]

-- An indentation is made of spaces, so it is as long in bytes.
theorem blockLines?_eq (indent stop : Nat) (ls : List (Nat × List Char)) :
    blockLines? indent stop ls = some (blockLines indent stop ls) := by
  induction ls generalizing stop with
  | nil => rfl
  | cons first ls ih =>
    obtain ⟨offset, line⟩ := first
    unfold blockLines? blockLines
    split
    case isTrue => simp [ih]
    case isFalse =>
      split
      case isTrue => rfl
      case isFalse deep =>
        have cut := Text.splitAtByte_append (List.replicate indent ' ') (line.drop indent)
        rw [byteLength_replicate_space, ← replicate_append_drop (Nat.le_of_not_lt deep)] at cut
        simp [ih, cut]

-- The line of a marker, and the lines above it.
structure Above (before above : List Char) : Prop where
  whole : before = above ++ lastLine before
  start : lineStartOf before = byteLength above
  ends : lineStartOf before ≠ 0 →
    above = before.take (before.length - (lastLine before).length - 1) ++ ['\n']

theorem exists_above (before : List Char) : ∃ above, Above before above := by
  obtain ⟨above, whole, ends, _⟩ := Text.exists_endsLine before
  have start : lineStartOf before = byteLength above := by
    have length := congrArg byteLength whole
    rw [Text.byteLength_append] at length
    unfold lineStartOf
    omega
  refine ⟨above, whole, start, fun below => ?_⟩
  obtain rfl | ⟨front, rfl⟩ := ends
  · exact absurd start below
  · have length := congrArg List.length whole
    simp only [List.length_append, List.length_singleton] at length
    have cut : before.length - (lastLine before).length - 1 = front.length := by omega
    rw [cut, whole, List.append_assoc, List.take_left]

theorem le_stop_blockLines (h : Opens before) (after : List Char) :
    byteLength before ≤ (blockLines (lastLine before).length (byteLength before)
      (linesFrom (lineStartOf before) (terminatedLines (lastLine before ++ after)))).2 := by
  rcases ends_or_exists_isBlock (lastLine before).length (terminatedLines (lastLine before ++ after))
    with ends | ⟨front, last, back, cut, block⟩
  case inl =>
    obtain ⟨k, read⟩ := ends.blockLines_eq
    exact Nat.le_of_eq (congrArg Prod.snd (read _ _)).symm
  case inr =>
    obtain ⟨k, read⟩ := block.blockLines_eq
    have whole : lastLine before ++ after = front.flatten ++ (last ++ back.flatten) := by
      rw [← Text.flatten_terminatedLines (lastLine before ++ after), cut]
      simp
    obtain ⟨under, content⟩ := block.exists_under h.spaces whole
    have length := congrArg byteLength content
    have margin := Text.lineStartOf_add_lastLine before
    simp only [Text.byteLength_append] at length
    rw [cut, read]
    dsimp only
    omega

-- The cuts are made where the scalar is found.
theorem blockScalar?_append (before after value : List Char) (literal : Bool) :
    blockScalar? (before ++ after) (byteLength before) value literal
      = some (blockScalar (before ++ after) (byteLength before) value literal) := by
  obtain ⟨above, cut⟩ := exists_above before
  have margin := Text.lineStartOf_add_lastLine before
  have start : Text.lineStart? (before ++ after) (byteLength before) = some (lineStartOf before) := by
    simp [Text.lineStart?, Text.splitAtByte_append]
  have first : Text.slice (lineStartOf before) (byteLength before) (before ++ after)
      = some (lastLine before) := by
    refine Text.slice_eq_some_iff.mpr ⟨above, after, ?_, cut.start.symm, by omega⟩
    rw [← List.append_assoc, ← cut.whole]
  have rest : Text.slice (lineStartOf before) (byteLength (before ++ after)) (before ++ after)
      = some (lastLine before ++ after) := by
    refine Text.slice_eq_some_iff.mpr ⟨above, [], ?_, cut.start.symm, ?_⟩
    · rw [List.append_nil, ← List.append_assoc, ← cut.whole]
    · simp only [Text.byteLength_append]
      omega
  unfold blockScalar? blockScalar
  rw [start, Text.splitAtByte_append]
  simp only [Option.bind_eq_bind, Option.bind_some, first]
  split
  case isTrue => rfl
  case isFalse open' =>
    simp only [Bool.or_eq_true, not_or, List.isEmpty_iff, decide_eq_true_eq, Bool.not_eq_true',
      Bool.not_eq_false] at open'
    obtain ⟨⟨printed, below⟩, spaces⟩ := open'
    have width : byteLength (lastLine before) = (lastLine before).length := by
      apply Text.byteLength_eq_length
      intro c hc
      have : c = ' ' := by simpa using List.all_eq_true.mp spaces c hc
      exact this ▸ by decide
    have higher : Text.slice 0 (lineStartOf before - 1) (before ++ after)
        = some (before.take (before.length - (lastLine before).length - 1)) := by
      have ends := cut.ends below
      have length := congrArg byteLength ends
      have one : byteLength ['\n'] = 1 := rfl
      rw [Text.byteLength_append, ← cut.start, one] at length
      refine Text.slice_eq_some_iff.mpr ⟨[], '\n' :: (lastLine before ++ after), ?_, rfl, by omega⟩
      conv_lhs => rw [cut.whole, ends]
      simp
    simp only [higher, Option.bind_some, width]
    split
    case isTrue => rfl
    case isFalse deeper =>
      have opens : Opens before := ⟨below, spaces, Nat.not_le.mp deeper⟩
      have stop := le_stop_blockLines opens after
      have shifted := Text.map_linesFrom (lineStartOf before) 0
        (terminatedLines (lastLine before ++ after))
      rw [Nat.add_zero] at shifted
      simp only [rest, Option.bind_some, Text.linesWithOffsets, shifted, blockLines?_eq]
      generalize blockLines (lastLine before).length (byteLength before) _ = read at stop ⊢
      have span : (Span.of (byteLength before) read.2).toOption
          = some (.ofLength (byteLength before) (read.2 - byteLength before)) := by
        rw [Span.of, dif_pos stop]
        exact congrArg some (Span.eq_ofLength rfl (by dsimp only; omega))
      simp [span]

end Repin.Yaml.ScalarPlace
