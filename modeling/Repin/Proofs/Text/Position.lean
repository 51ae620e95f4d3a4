import Mathlib.Order.Monotone.Defs
import Mathlib.Order.Nat
import Repin.Proofs.Text.Lines
/-!
# Positions in a text

A cut of a text is known by the number of characters in front of it, by the number of their bytes, and by
its line and column. Main statement: `positions_agree`.
-/
namespace Repin.Text

variable {as bs cs above line : List Char} {p : Position} {c : Char} {i n : Nat}

theorem length_le_byteLength (cs : List Char) : cs.length ≤ byteLength cs := by
  induction cs with
  | nil => exact Nat.le_refl 0
  | cons c cs ih =>
    have pos := c.utf8Size_pos
    rw [List.length_cons, byteLength_cons]
    omega

theorem byteLength_le_of_isPrefix (h : as <+: bs) : byteLength as ≤ byteLength bs := by
  have ⟨rest, whole⟩ := h
  simp [← whole]

namespace CharOffsets

-- The offsets of a text of ASCII characters, which needs no table.
def ofAscii (cs : List Char) : CharOffsets where
  table := none
  length := byteLength cs

-- The offsets of a text by a table, whether it needs one or not.
def ofTable (cs : List Char) : CharOffsets where
  table := some (starts 0 cs).toArray
  length := byteLength cs

theorem getElem?_starts (offset : Nat) (cs : List Char) (i : Nat) : (starts offset cs)[i]? =
    if i < cs.length then some (offset + byteLength (cs.take i)) else none := by
  induction cs generalizing offset i with
  | nil => simp [starts]
  | cons c cs ih => cases i <;> simp [starts, ih, Nat.add_assoc]

theorem byteOffset_ofAscii (h : ∀ c ∈ cs, c.toNat < 0x80) :
    (ofAscii cs).byteOffset i = byteLength (cs.take i) := by
  have part : ∀ c ∈ cs.take i, c.toNat < 0x80 := fun c hc => h c (List.mem_of_mem_take hc)
  rw [byteLength_eq_length part, List.length_take, ← byteLength_eq_length h]
  rfl

theorem byteOffset_ofTable : (ofTable cs).byteOffset i = byteLength (cs.take i) := by
  simp only [ofTable, byteOffset, Array.getD_eq_getD_getElem?, List.getElem?_toArray, getElem?_starts]
  split
  case isTrue => simp
  case isFalse outside => simp [List.take_of_length_le (Nat.le_of_not_lt outside)]

theorem ofText_cases (cs : List Char) :
    (ofText cs = ofAscii cs ∧ ∀ c ∈ cs, c.toNat < 0x80) ∨ ofText cs = ofTable cs := by
  unfold ofText
  split
  case isTrue ascii => exact .inl ⟨rfl, by simpa using ascii⟩
  case isFalse => exact .inr rfl

-- The offset of a character is the length of the text in front of it.
theorem byteOffset_ofText : (ofText cs).byteOffset i = byteLength (cs.take i) := by
  cases ofText_cases cs
  case inl h => rw [h.left, byteOffset_ofAscii h.right]
  case inr h => rw [h, byteOffset_ofTable]

theorem monotone_byteOffset (cs : List Char) : Monotone (ofText cs).byteOffset := by
  intro i j le
  rw [byteOffset_ofText, byteOffset_ofText]
  exact byteLength_le_of_isPrefix (List.take_prefix_take_left le)

theorem isBoundary_byteOffset : IsBoundary cs ((ofText cs).byteOffset i) :=
  ⟨cs.take i, cs.drop i, List.take_append_drop i cs, byteOffset_ofText.symm⟩

end CharOffsets

theorem byteOffset_append (before : List Char) (c : Char) (after : List Char) :
    (CharOffsets.ofText (before ++ c :: after)).byteOffset before.length = byteLength before := by
  simp [CharOffsets.byteOffset_ofText]

-- The characters in front of an offset are passed one by one.
theorem positionFrom_append (p : Position) (before after : List Char) :
    positionFrom p (byteLength before) (before ++ after) = before.foldl Position.after p := by
  induction before generalizing p with
  | nil => cases after <;> rfl
  | cons c before ih =>
    have pos := c.utf8Size_pos
    obtain ⟨n, hn⟩ : ∃ n, byteLength (c :: before) = n + 1 :=
      ⟨byteLength (c :: before) - 1, by simp only [byteLength_cons]; omega⟩
    have rest : n + 1 - c.utf8Size = byteLength before := by rw [← hn, byteLength_cons]; omega
    rw [hn, List.cons_append, positionFrom, rest, ih, List.foldl_cons]

namespace Position

theorem line_foldl (p : Position) (cs : List Char) :
    (cs.foldl after p).line = p.line + cs.count '\n' := by
  induction cs generalizing p with
  | nil => rfl
  | cons c cs ih =>
    rw [List.foldl_cons, ih, List.count_cons, after]
    by_cases feed : c = '\n'
    case pos => simp [feed, Nat.add_comm, Nat.add_left_comm]
    case neg => simp [feed]

theorem col_foldl_of_not_mem (h : '\n' ∉ cs) : (cs.foldl after p).col = p.col + cs.length := by
  induction cs generalizing p with
  | nil => rfl
  | cons c cs ih =>
    simp only [List.mem_cons, not_or] at h
    rw [List.foldl_cons, ih h.right, after, if_neg (Ne.symm h.left), List.length_cons]
    exact Nat.add_right_comm ..

-- A line starts in the first column.
theorem col_foldl_of_endsLine (h : EndsLine above) : (above.foldl after start).col = 1 := by
  cases h
  case inl none => rw [none]; rfl
  case inr h =>
    have ⟨front, whole⟩ := h
    simp [whole, after]

end Position

theorem line_position (before after : List Char) :
    (position (before ++ after) (byteLength before)).line = before.count '\n' + 1 := by
  rw [position, positionFrom_append, Position.line_foldl, Nat.add_comm]
  rfl

theorem col_position (ends : EndsLine above) (inside : '\n' ∉ line) (after : List Char) :
    (position (above ++ line ++ after) (byteLength (above ++ line))).col = line.length + 1 := by
  rw [position, positionFrom_append, List.foldl_append, Position.col_foldl_of_not_mem inside,
    Position.col_foldl_of_endsLine ends, Nat.add_comm]

-- A cut of a text at an offset, and the line around it: the text above the line, the parts of the line
-- in front of the cut and behind it, and what follows the line from its terminator on.
structure LineAround (cs : List Char) (offset : Nat) (above left right below : List Char) : Prop where
  whole : cs = above ++ left ++ (right ++ below)
  offset : offset = byteLength (above ++ left)
  inside : '\n' ∉ left ++ right
  opens : EndsLine above
  closes : StartsEnd below

namespace LineAround

variable {left right below : List Char} {offset : Nat}

theorem position_eq (h : LineAround cs offset above left right below) :
    position cs offset = ⟨(above ++ left).count '\n' + 1, left.length + 1⟩ := by
  have inside : '\n' ∉ left := fun feed => h.inside (List.mem_append_left _ feed)
  rw [h.whole, h.offset, ← line_position, ← col_position h.opens inside]

-- Lines and columns are no greater than offsets, but for being counted from one.
theorem position_le (h : LineAround cs offset above left right below) :
    (position cs offset).line ≤ byteLength cs + 1 ∧ (position cs offset).col ≤ byteLength cs + 1 := by
  have front := length_le_byteLength (above ++ left)
  have feeds : (above ++ left).count '\n' ≤ (above ++ left).length := List.count_le_length
  rw [h.position_eq, h.whole, byteLength_append]
  rw [List.length_append] at front feeds
  dsimp only
  omega

end LineAround

theorem exists_lineAround {offset : Nat} (h : IsBoundary cs offset) : ∃ above left right below,
    LineAround cs offset above left right below ∧ lineStart? cs offset = some (byteLength above) ∧
      lineEnd? cs offset = some (byteLength (above ++ left ++ right)) := by
  have ⟨before, after, whole, length⟩ := h
  subst whole length
  have ⟨above, front, opens, outside⟩ := exists_endsLine before
  have ⟨below, rest, closes⟩ := exists_startsEnd after
  have start := lineStartOf_add_lastLine before
  have size := congrArg byteLength front
  rw [byteLength_append] at size
  refine ⟨above, lastLine before, stripLast '\r' (after.takeWhile (· ≠ '\n')), below,
    ⟨?whole, ?offset, ?inside, opens, closes⟩, ?start, ?stop⟩
  case whole => rw [← front, ← rest]
  case offset => rw [← front]
  case inside =>
    have kept : '\n' ∉ after.takeWhile (· ≠ '\n') := fun feed => by
      simpa using List.all_eq_true.mp List.all_takeWhile _ feed
    rw [List.mem_append, not_or]
    exact ⟨outside, fun feed => kept ((stripLast_isPrefix _ _).mem feed)⟩
  case start =>
    rw [lineStart?_append]
    exact congrArg some (by omega)
  case stop => rw [lineEnd?_append, lineEndOf, ← front, ← byteLength_append]

-- The offsets of characters, and the lines and columns of offsets, as the text has them. Lines and
-- columns of a text of this length fit in 32 bits.
theorem positions_agree (cs : List Char) (small : byteLength cs < UInt32.size - 1) :
    (∀ i, (CharOffsets.ofText cs).byteOffset i =
      if i < cs.length then byteLength (cs.take i) else byteLength cs) ∧
    Monotone (CharOffsets.ofText cs).byteOffset ∧
    (∀ i, IsBoundary cs ((CharOffsets.ofText cs).byteOffset i)) ∧
    ((∀ c ∈ cs, c.toNat < 0x80) →
      ∀ i, (CharOffsets.ofAscii cs).byteOffset i = (CharOffsets.ofTable cs).byteOffset i) ∧
    ∀ offset, IsBoundary cs offset → ∃ above left right below,
      LineAround cs offset above left right below ∧
      lineStart? cs offset = some (byteLength above) ∧
      lineEnd? cs offset = some (byteLength (above ++ left ++ right)) ∧
      position cs offset = ⟨(above ++ left).count '\n' + 1, left.length + 1⟩ ∧
      (position cs offset).line < UInt32.size ∧ (position cs offset).col < UInt32.size := by
  refine ⟨fun i => ?offset, CharOffsets.monotone_byteOffset cs,
    fun i => CharOffsets.isBoundary_byteOffset, fun ascii i => ?ascii, fun offset cut => ?line⟩
  case offset =>
    rw [CharOffsets.byteOffset_ofText]
    split
    case isTrue => rfl
    case isFalse outside => rw [List.take_of_length_le (Nat.le_of_not_lt outside)]
  case ascii => rw [CharOffsets.byteOffset_ofAscii ascii, CharOffsets.byteOffset_ofTable]
  case line =>
    have ⟨above, left, right, below, around, start, stop⟩ := exists_lineAround cut
    have ⟨line, col⟩ := around.position_le
    exact ⟨above, left, right, below, around, start, stop, around.position_eq, by omega, by omega⟩

-- Behind a character of two bytes, and behind a line that ends with two.
theorem positions_agree_crlf :
    let cs := "é: 1\r\nb: 2".toList
    byteLength cs < UInt32.size - 1 ∧ (CharOffsets.ofText cs).byteOffset 1 = 2 ∧
      ∃ above left right below, LineAround cs 8 above left right below ∧
        position cs 8 = ⟨(above ++ left).count '\n' + 1, left.length + 1⟩ ∧ position cs 8 = ⟨2, 2⟩ := by
  intro cs
  have small : byteLength cs < UInt32.size - 1 := by decide
  have cut : IsBoundary cs 8 := ⟨"é: 1\r\nb".toList, ": 2".toList, by decide, by decide⟩
  have ⟨offsets, _, _, _, lines⟩ := positions_agree cs small
  have ⟨above, left, right, below, around, _, _, place, _⟩ := lines 8 cut
  exact ⟨small, (offsets 1).trans (by decide), above, left, right, below, around, place, by decide⟩

end Repin.Text
