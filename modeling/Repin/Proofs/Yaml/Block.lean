import Repin.Proofs.Text.Lines
import Repin.Yaml.Scalar
/-!
# Block scalars by their lines

The lines from the margin of a block scalar on fall in two: those up to its last line of content, and
those behind it, none of which belongs to the scalar. What is reported of the scalar follows from this
cut alone. Main statement: `ScalarPlace.blockScalar_of_isBlock`.
-/
namespace Repin

namespace Text

variable {cs : List Char} {ls : List (List Char)}

-- The offsets of lines are counted from where the lines start.
theorem map_linesFrom (start offset : Nat) (ls : List (List Char)) :
    (linesFrom offset ls).map (fun p => (start + p.1, p.2)) = linesFrom (start + offset) ls := by
  induction ls generalizing offset with
  | nil => rfl
  | cons line ls ih => simp [linesFrom, ih, Nat.add_assoc]

end Text

namespace Yaml.ScalarPlace

open Text (trim trimEnd stripTerminator terminatedLines linesFrom lastLine lineStartOf byteLength)

variable {n : Nat} {line : List Char} {ls front back : List (List Char)} {last : List Char}

theorem replicate_append_drop (h : n ≤ indentOf line) :
    line = List.replicate n ' ' ++ line.drop n := by
  have parts := List.takeWhile_append_dropWhile (p := (· = ' ')) (l := line)
  have spaces : line.takeWhile (· = ' ') = List.replicate (indentOf line) ' ' := by
    apply List.eq_replicate_of_mem
    intro d hd
    simpa using List.all_eq_true.mp List.all_takeWhile d hd
  have cut : indentOf line = n + (indentOf line - n) := by omega
  rw [spaces, cut, ← List.replicate_append_replicate, List.append_assoc] at parts
  rw [← parts, List.drop_left' (by simp)]

theorem indentOf_replicate_append (n : Nat) (line : List Char) :
    n ≤ indentOf (List.replicate n ' ' ++ line) := by
  rw [indentOf, List.takeWhile_append_of_pos (by simp)]
  simp

-- Only what stands behind the indentation of a printed line tells lines of one beginning apart.
theorem indentOf_append (h : trim line ≠ []) (tail : List Char) :
    indentOf (line ++ tail) = indentOf line := by
  rw [indentOf, List.takeWhile_append, if_neg]
  · rfl
  intro spaces
  refine h (Text.trim_eq_nil_iff.mpr fun d hd => ?_)
  rw [← (List.takeWhile_prefix _).eq_of_length spaces] at hd
  have : d = ' ' := by simpa using List.all_eq_true.mp List.all_takeWhile d hd
  exact this ▸ by decide

-- What a line of a block is as a line of the content.
def dedent (n : Nat) (line : List Char) : List Char :=
  if (trim line).isEmpty then [] else line.drop n

-- Lines without any content of the block: blank ones, up to a line that is indented less.
inductive Ends (n : Nat) : List (List Char) → Prop where
  | nil : Ends n []
  | blank {line : List Char} {ls : List (List Char)} :
    trim (stripTerminator line) = [] → Ends n ls → Ends n (line :: ls)
  | outer {line : List Char} {ls : List (List Char)} :
    trim (stripTerminator line) ≠ [] → indentOf (stripTerminator line) < n → Ends n (line :: ls)

-- The cut of lines behind the last line of content.
structure IsBlock (n : Nat) (front : List (List Char)) (last : List Char) (back : List (List Char)) :
    Prop where
  inside : ∀ line ∈ front, trim (stripTerminator line) ≠ [] → n ≤ indentOf (stripTerminator line)
  printed : trim (stripTerminator last) ≠ []
  indented : n ≤ indentOf (stripTerminator last)
  closed : Ends n back

theorem ends_or_exists_isBlock (n : Nat) (ls : List (List Char)) :
    Ends n ls ∨ ∃ front last back, ls = front ++ last :: back ∧ IsBlock n front last back := by
  induction ls with
  | nil => exact .inl .nil
  | cons line ls ih =>
    -- a line of the block joins the ones behind it
    have join {front last back} (h : IsBlock n front last back) (hl : trim (stripTerminator line) ≠ [] →
        n ≤ indentOf (stripTerminator line)) : IsBlock n (line :: front) last back :=
      { h with inside := List.forall_mem_cons.mpr ⟨hl, h.inside⟩ }
    by_cases hb : trim (stripTerminator line) = []
    case pos =>
      obtain ends | ⟨front, last, back, rfl, block⟩ := ih
      · exact .inl (.blank hb ends)
      · exact .inr ⟨line :: front, last, back, rfl, join block fun printed => absurd hb printed⟩
    case neg =>
      by_cases hi : indentOf (stripTerminator line) < n
      case pos => exact .inl (.outer hb hi)
      case neg =>
        obtain ends | ⟨front, last, back, rfl, block⟩ := ih
        · exact .inr ⟨[], line, ls, rfl, by simp, hb, Nat.le_of_not_lt hi, ends⟩
        · exact .inr ⟨line :: front, last, back, rfl, join block fun _ => Nat.le_of_not_lt hi⟩

theorem Ends.blockLines_eq (h : Ends n ls) :
    ∃ k, ∀ offset stop, blockLines n stop (linesFrom offset ls) = (List.replicate k [], stop) := by
  induction h with
  | nil => exact ⟨0, fun _ _ => rfl⟩
  | blank hb _ ih =>
    obtain ⟨k, ih⟩ := ih
    exact ⟨k + 1, fun offset stop => by simp [linesFrom, blockLines, hb, ih, List.replicate_succ]⟩
  | outer hb hi => exact ⟨0, fun offset stop => by simp [linesFrom, blockLines, hb, hi]⟩

theorem IsBlock.blockLines_eq (h : IsBlock n front last back) :
    ∃ k, ∀ offset stop, blockLines n stop (linesFrom offset (front ++ last :: back))
      = (front.map (fun line => dedent n (stripTerminator line))
          ++ (stripTerminator last).drop n :: List.replicate k [],
        offset + byteLength front.flatten + byteLength (trimEnd (stripTerminator last))) := by
  have ⟨k, behind⟩ := h.closed.blockLines_eq
  refine ⟨k, ?_⟩
  have inside := h.inside
  induction front with
  | nil =>
    intro offset stop
    simp [linesFrom, blockLines, h.printed, Nat.not_lt.mpr h.indented, behind]
  | cons line front ih =>
    intro offset stop
    have ⟨hl, inside⟩ := List.forall_mem_cons.mp inside
    have ih := ih { h with inside } inside
    simp only [List.cons_append, linesFrom, blockLines, List.isEmpty_iff]
    by_cases hb : trim (stripTerminator line) = []
    case pos => simp [hb, ih, dedent, Nat.add_assoc]
    case neg => simp [hb, Nat.not_lt.mpr (hl hb), ih, dedent, Nat.add_assoc]

theorem drop_ne_nil (h : trim line ≠ []) (hi : n ≤ indentOf line) : line.drop n ≠ [] := by
  intro none
  rw [replicate_append_drop hi, none, List.append_nil] at h
  exact h (Text.trim_eq_nil_iff.mpr (by simp +contextual [Text.isBlank]))

theorem withoutLastEmpty_append (lines : List (List Char)) (h : line ≠ []) (k : Nat) :
    withoutLastEmpty (lines ++ line :: List.replicate k []) = lines ++ [line] := by
  have empty : ∀ d ∈ List.replicate k ([] : List Char), d.isEmpty := by simp
  simp [withoutLastEmpty, List.dropWhile_append_of_pos empty, h]

-- The lines of the content.
def contentLines (n : Nat) (front : List (List Char)) (last : List Char) : List (List Char) :=
  front.map (fun line => dedent n (stripTerminator line)) ++ [(stripTerminator last).drop n]

-- What stands in front of a block scalar: other lines, the last printed one of which is indented less
-- than the margin of spaces behind them.
structure Opens (before : List Char) : Prop where
  below : lineStartOf before ≠ 0
  spaces : (lastLine before).all (· = ' ')
  deeper : outerIndent (before.take (before.length - (lastLine before).length - 1))
    < (lastLine before).length

variable {before after under source value : List Char} {marker stop : Nat}
variable {lines : List (List Char)} {literal : Bool}

-- The indentation of the block at a marker: the width of the margin in front of it.
def indentAt? (source : List Char) (marker : Nat) : Option Nat :=
  (Text.splitAtByte marker source).map fun (before, _) => (lastLine before).length

theorem indentAt?_append (before after : List Char) :
    indentAt? (before ++ after) (byteLength before) = some (lastLine before).length := by
  rw [indentAt?, Text.splitAtByte_append, Option.map_some]

-- Whether lines make up a value, but for the line feeds at its end. Lines that are folded are no
-- content of several.
def isContent (literal : Bool) (lines : List (List Char)) (value : List Char) : Bool :=
  if literal then ['\n'].intercalate lines = withoutLastBreaks value
  else decide (lines.length ≤ 1) && decide (lines.head? = some (withoutLastBreaks value))

theorem blockScalar_of_opens (h : Opens before) (hv : value ≠ [])
    (hl : blockLines (lastLine before).length (byteLength before)
      (linesFrom (lineStartOf before) (terminatedLines (lastLine before ++ after))) = (lines, stop)) :
    blockScalar (before ++ after) (byteLength before) value literal
      = ⟨.ofLength (byteLength before) (stop - byteLength before), 1 < (withoutLastEmpty lines).length,
          isContent literal (withoutLastEmpty lines) value⟩ := by
  have shifted := Text.map_linesFrom (lineStartOf before) 0
    (terminatedLines (lastLine before ++ after))
  rw [Nat.add_zero] at shifted
  simp [blockScalar, Text.splitAtByte_append, hv, h.below, h.spaces, Nat.not_le.mpr h.deeper,
    Text.linesWithOffsets, shifted, hl, isContent]

-- Only what stands behind an opening is patchable.
theorem exists_opens_of_patchable
    (h : (blockScalar source marker value literal).patchable) :
    ∃ before after, source = before ++ after ∧ byteLength before = marker ∧ Opens before ∧
      value ≠ [] := by
  unfold blockScalar at h
  split at h
  case h_1 => cases h
  case h_2 before after cut =>
    have ⟨whole, length⟩ := Text.append_of_splitAtByte cut
    dsimp only at h
    split at h
    case isTrue => cases h
    case isFalse open' =>
      split at h
      case isTrue => cases h
      case isFalse deeper =>
        simp only [Bool.or_eq_true, not_or, List.isEmpty_iff, decide_eq_true_eq, Bool.not_eq_true',
          Bool.not_eq_false] at open'
        obtain ⟨⟨printed, below⟩, spaces⟩ := open'
        exact ⟨before, after, whole.symm, length, ⟨below, spaces, Nat.not_le.mp deeper⟩, printed⟩

theorem blockScalar_of_isBlock (h : Opens before) (hv : value ≠ [])
    (cut : terminatedLines (lastLine before ++ after) = front ++ last :: back)
    (hb : IsBlock (lastLine before).length front last back)
    (hu : lastLine before ++ under = front.flatten ++ trimEnd (stripTerminator last)) :
    blockScalar (before ++ after) (byteLength before) value literal
      = ⟨.ofLength (byteLength before) (byteLength under),
          1 < (contentLines (lastLine before).length front last).length,
          isContent literal (contentLines (lastLine before).length front last) value⟩ := by
  have ⟨k, read⟩ := hb.blockLines_eq
  have content := withoutLastEmpty_append
    (front.map fun line => dedent (lastLine before).length (stripTerminator line))
    (drop_ne_nil hb.printed hb.indented) k
  have length := congrArg byteLength hu
  have margin := Text.lineStartOf_add_lastLine before
  simp only [Text.byteLength_append] at length
  have stop : lineStartOf before + byteLength front.flatten
      + byteLength (trimEnd (stripTerminator last)) - byteLength before = byteLength under := by
    omega
  rw [blockScalar_of_opens h hv (cut ▸ read _ _), content, stop]
  rfl

theorem blockScalar_eq_of_ends (h : Opens before) (hv : value ≠ [])
    (he : Ends (lastLine before).length (terminatedLines (lastLine before ++ after))) :
    blockScalar (before ++ after) (byteLength before) value literal
      = ⟨.ofLength (byteLength before) 0, false, isContent literal [] value⟩ := by
  have ⟨k, read⟩ := he.blockLines_eq
  have none : withoutLastEmpty (List.replicate k []) = [] := by simp [withoutLastEmpty]
  rw [blockScalar_of_opens h hv (read _ _), none, Nat.sub_self]
  rfl

-- The margin ends in front of the content.
theorem IsBlock.exists_under (hb : IsBlock n front last back) {margin : List Char}
    (spaces : margin.all (· = ' '))
    (whole : margin ++ after = front.flatten ++ (last ++ back.flatten)) :
    ∃ under, margin ++ under = front.flatten ++ trimEnd (stripTerminator last) := by
  have content : front.flatten ++ trimEnd (stripTerminator last) <+: margin ++ after := by
    rw [whole, List.prefix_append_right_inj]
    exact (Text.trimEnd_isPrefix _).trans <| (Text.stripTerminator_isPrefix _).trans <|
      List.prefix_append _ _
  -- the last character of the content is no space
  have outside : ¬ front.flatten ++ trimEnd (stripTerminator last) <+: margin := by
    intro inside
    have ne : trimEnd (stripTerminator last) ≠ [] := by
      intro none
      exact hb.printed (Text.trim_eq_nil_iff.mpr (Text.trimEnd_eq_nil_iff.mp none))
    have ⟨d, hd⟩ := Option.ne_none_iff_exists'.mp (mt List.getLast?_eq_none_iff.mp ne)
    have space : d = ' ' := by
      have := inside.mem (List.mem_append_right _ (List.mem_of_getLast? hd))
      simpa using List.all_eq_true.mp spaces d this
    have printed := Text.isBlank_getLast?_trimEnd hd
    rw [space] at printed
    cases printed
  exact (List.prefix_or_prefix_of_prefix (List.prefix_append margin after) content).resolve_right
    outside

end Yaml.ScalarPlace
end Repin
