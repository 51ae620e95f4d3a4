import Repin.Proofs.Patch.Splice
import Repin.Proofs.Version.Cut
import Repin.Proofs.Version.PinnedImage
/-!
# The runs of an image

A run of a tag is told without the reader: it is a part between two cuts that is one to three numbers
between dots. The runs found in a reference are these, at their bytes, and the text for a channel is
the text of the reference with some of them replaced.

Main statement: `ImageReference.runs_upgraded`.
-/
namespace Repin

variable {c : Channel} {cs before piece after : List Char}

namespace RunVersion

variable {v : RunVersion}

theorem ofNumbers?_eq_some_iff {ns : List UInt64} : ofNumbers? ns = some v ↔ v.numbers = ns := by
  constructor
  case mp =>
    intro h
    unfold ofNumbers? at h
    split at h
    all_goals cases h
    all_goals rfl
  case mpr =>
    rintro rfl
    cases v <;> rfl

-- The numbers of a run between dots.
def IsWritten (v : RunVersion) (piece : List Char) : Prop :=
  List.Forall₂ Text.IsNumber (Text.splitAt '.' piece) v.numbers

theorem read?_eq_some_iff : read? piece = some v ↔ v.IsWritten piece := by
  simp only [read?, Option.bind_eq_bind, Option.bind_eq_some_iff, ofNumbers?_eq_some_iff,
    mapM_eq_some_iff, Text.readNumber_eq_some_iff, IsWritten]
  constructor
  case mp =>
    rintro ⟨_, h, rfl⟩
    exact h
  case mpr => exact fun h => ⟨_, h, rfl⟩

theorem IsWritten.ne_nil (h : v.IsWritten piece) : piece ≠ [] := by
  rintro rfl
  rw [← read?_eq_some_iff] at h
  simp [read?, Text.splitOn, Text.readNumber] at h

-- Number by number, the run comes before the channel.
def IsBelow (c : Channel) (v : RunVersion) : Prop :=
  v.numbers.take 2 < [c.major, c.minor].take v.numbers.length

instance : Decidable (v.IsBelow c) :=
  inferInstanceAs (Decidable (_ < _))

theorem isBelow_iff : v.IsBelow c ↔ v.isAtLeast c = false := by
  cases v
  case major => simp [IsBelow, numbers, isAtLeast, List.cons_lt_cons_iff]
  all_goals
    simp only [IsBelow, numbers, isAtLeast, Channel.isReachedBy, reaches, List.length_cons,
      List.length_nil, List.take_succ_cons, List.take_zero, List.take_nil, List.cons_lt_cons_iff,
      List.not_lt_nil, and_false, or_false, Bool.or_eq_false_iff, Bool.and_eq_false_imp,
      decide_eq_false_iff_not, beq_iff_eq, UInt64.not_lt, UInt64.not_le]
    rw [UInt64.le_iff_lt_or_eq]
    grind

end RunVersion

namespace TagPart

-- A text is empty or ends in a separator.
def EndsCut (cs : List Char) : Prop :=
  ∀ d, cs.getLast? = some d → isSeparator d

theorem endsCut_append (ne : cs ≠ []) (front : List Char) : EndsCut (front ++ cs) ↔ EndsCut cs := by
  simp only [EndsCut, List.getLast?_append_of_ne_nil _ ne]

theorem endsCut_cons {d : Char} (hd : isSeparator d) : EndsCut (d :: cs) ↔ EndsCut cs := by
  by_cases ne : cs = []
  case pos => simp [ne, EndsCut, hd]
  case neg => exact endsCut_append ne [d]

-- What stands between two cuts.
structure IsPiece (tag before piece after : List Char) : Prop where
  whole : tag = before ++ (piece ++ after)
  starts : EndsCut before
  inside : ∀ d ∈ piece, ¬ isSeparator d
  stops : StartsCut after

end TagPart

-- A piece of a tag that is the numbers of a run. The tag starts at an offset.
def LocatedRun.LiesIn (offset : Nat) (tag : List Char) (r : LocatedRun) : Prop :=
  ∃ before piece after, TagPart.IsPiece tag before piece after ∧ r.version.IsWritten piece ∧
    r.start = offset + Text.byteLength before ∧ r.stop = r.start + Text.byteLength piece

-- The text of a channel at a number of segments.
def Channel.atSegments (c : Channel) : Nat → String
  | 1 => Text.writeNumber c.major
  | 2 => c.render
  | _ => c.sdk.render

theorem RunVersion.upgraded_eq (c : Channel) (v : RunVersion) :
    v.upgraded c = c.atSegments v.numbers.length := by
  cases v <;> rfl

-- An edit that puts the text of a channel in the place of a run.
structure LocatedRun.IsReplacedBy (c : Channel) (r : LocatedRun) (e : EditSpan) : Prop where
  start : e.span.start = r.start
  stop : e.span.stop = r.stop
  text : e.text = c.atSegments r.version.numbers.length

namespace LocatedRun

variable {offset : Nat} {tag : List Char} {r : LocatedRun} {d : Char}

theorem liesIn_nil : ¬ r.LiesIn offset [] := by
  rintro ⟨before, piece, after, isPiece, written, _⟩
  have whole := isPiece.whole
  simp [written.ne_nil] at whole

theorem liesIn_cons (hd : TagPart.isSeparator d) :
    r.LiesIn offset (d :: tag) ↔ r.LiesIn (offset + 1) tag := by
  have one := ImageReference.utf8Size_of_isSeparator d hd
  constructor
  case mp =>
    rintro ⟨before, piece, after, ⟨whole, starts, inside, stops⟩, written, start, stop⟩
    cases before with
    | nil =>
      -- such a run would start with the separator
      obtain ⟨e, es, rfl⟩ := List.exists_cons_of_ne_nil written.ne_nil
      cases whole
      exact absurd hd (inside d List.mem_cons_self)
    | cons e before =>
      cases whole
      have starts := (TagPart.endsCut_cons hd).mp starts
      refine ⟨before, piece, after, ⟨rfl, starts, inside, stops⟩, written, ?_, stop⟩
      rw [start, Text.byteLength_cons, one]
      omega
  case mpr =>
    rintro ⟨before, piece, after, ⟨rfl, starts, inside, stops⟩, written, start, stop⟩
    have starts := (TagPart.endsCut_cons hd).mpr starts
    refine ⟨d :: before, piece, after, ⟨rfl, starts, inside, stops⟩, written, ?_, stop⟩
    rw [start, Text.byteLength_cons, one]
    omega

-- Where a cut is ahead, a run lies behind it.
theorem LiesIn.exists_of_startsCut (h : r.LiesIn offset tag) (cut : TagPart.StartsCut tag) :
    ∃ before piece after, before ≠ [] ∧ TagPart.IsPiece tag before piece after ∧
      r.version.IsWritten piece ∧ r.start = offset + Text.byteLength before ∧
      r.stop = r.start + Text.byteLength piece := by
  obtain ⟨before, piece, after, isPiece, written, start, stop⟩ := h
  refine ⟨before, piece, after, ?_, isPiece, written, start, stop⟩
  rintro rfl
  have whole := isPiece.whole
  obtain ⟨e, es, rfl⟩ := List.exists_cons_of_ne_nil written.ne_nil
  cases whole
  exact isPiece.inside e List.mem_cons_self (cut e rfl)

theorem LiesIn.lt_start (h : r.LiesIn offset tag) (cut : TagPart.StartsCut tag) :
    offset < r.start := by
  obtain ⟨before, _, _, ne, _, _, start, _⟩ := h.exists_of_startsCut cut
  have positive : Text.byteLength before ≠ 0 := fun h => ne (Text.byteLength_eq_zero_iff.mp h)
  omega

theorem liesIn_append {piece : List Char} (inside : ∀ d ∈ piece, ¬ TagPart.isSeparator d)
    (cut : TagPart.StartsCut tag) : r.LiesIn offset (piece ++ tag) ↔
      (r.version.IsWritten piece ∧ r.start = offset ∧ r.stop = offset + Text.byteLength piece) ∨
        r.LiesIn (offset + Text.byteLength piece) tag := by
  constructor
  case mp =>
    rintro ⟨before, piece', after, ⟨whole, starts, inside', stops⟩, written, start, stop⟩
    by_cases hb : before = []
    case pos =>
      subst hb
      have first := TagPart.takeWhile_of_startsCut inside cut
      rw [whole, List.nil_append, TagPart.takeWhile_of_startsCut inside' stops] at first
      subst first
      simp only [Text.byteLength_nil, Nat.add_zero] at start
      exact .inl ⟨written, start, by omega⟩
    case neg =>
      have ⟨d, hd⟩ := Option.ne_none_iff_exists'.mp (mt List.getLast?_eq_none_iff.mp hb)
      have separator := starts d hd
      -- the separator lies behind the piece, which has none
      obtain ⟨between, rfl, ht⟩ | ⟨between, rfl, _⟩ := List.append_eq_append_iff.mp whole
      case inr => exact absurd separator (inside d (by simp [List.mem_of_getLast? hd]))
      case inl =>
        have ne : between ≠ [] := by
          rintro rfl
          exact inside d (by simpa using List.mem_of_getLast? hd) separator
        have starts := (TagPart.endsCut_append ne piece).mp starts
        refine .inr ⟨between, piece', after, ⟨ht, starts, inside', stops⟩, written, ?_, stop⟩
        rw [start, Text.byteLength_append]
        omega
  case mpr =>
    rintro (⟨written, start, stop⟩ | h)
    · have starts : TagPart.EndsCut [] := by simp [TagPart.EndsCut]
      exact ⟨[], piece, tag, ⟨rfl, starts, inside, cut⟩, written, start, by omega⟩
    · obtain ⟨before, piece', after, ne, ⟨rfl, starts, inside', stops⟩, written, start, stop⟩ :=
        h.exists_of_startsCut cut
      have starts := (TagPart.endsCut_append ne piece).mpr starts
      refine ⟨piece ++ before, piece', after, ⟨by simp, starts, inside', stops⟩, written, ?_, stop⟩
      rw [start, Text.byteLength_append]
      omega

end LocatedRun

namespace ImageReference

variable {i : ImageReference} {part : TagPart} {parts : List TagPart} {v : RunVersion}
variable {offset : Nat} {r : LocatedRun} {text : String}

theorem runsFrom_separator {d : Char} (hd : TagPart.isSeparator d) :
    runsFrom offset (.separator d :: parts) = runsFrom (offset + 1) parts := by
  simp [runsFrom, TagPart.version?, TagPart.text, utf8Size_of_isSeparator d hd]

theorem runsFrom_of_none (h : part.version? = none) : runsFrom offset (part :: parts)
    = runsFrom (offset + Text.byteLength part.text.toList) parts := by
  simp [runsFrom, h]

theorem runsFrom_of_some (h : part.version? = some v) : runsFrom offset (part :: parts)
    = ⟨offset, offset + Text.byteLength part.text.toList, v⟩ ::
        runsFrom (offset + Text.byteLength part.text.toList) parts := by
  simp [runsFrom, h]

theorem mem_runsFrom_iff (h : TagPart.IsTag parts cs) :
    r ∈ runsFrom offset parts ↔ r.LiesIn offset cs := by
  induction h generalizing offset with
  | nil => simp [runsFrom, LocatedRun.liesIn_nil]
  | separator hd _ ih => rw [runsFrom_separator hd, LocatedRun.liesIn_cons hd, ih]
  | @piece piece part parts cs hp inside cut _ ih =>
    have ⟨_, text, version⟩ := TagPart.of_ofPiece hp
    rw [LocatedRun.liesIn_append inside cut, ← ih, ← RunVersion.read?_eq_some_iff, ← version, ← text]
    cases hv : part.version? with
    | none => simp [runsFrom_of_none hv]
    | some v =>
      obtain ⟨start, stop, w⟩ := r
      simp only [runsFrom_of_some hv, List.mem_cons, LocatedRun.mk.injEq, Option.some.injEq]
      grind

theorem pairwise_runsFrom (h : TagPart.IsTag parts cs) :
    (runsFrom offset parts).Pairwise fun r s => r.stop < s.start := by
  induction h generalizing offset with
  | nil => exact .nil
  | separator hd _ ih => rw [runsFrom_separator hd]; exact ih
  | @piece piece part parts cs hp inside cut tail ih =>
    cases hv : part.version? with
    | none => rw [runsFrom_of_none hv]; exact ih
    | some v =>
      rw [runsFrom_of_some hv]
      exact .cons (fun s hs => ((mem_runsFrom_iff tail).mp hs).lt_start cut) ih

theorem getLast?_splitAt (separator : Char) (cs : List Char) :
    (Text.splitAt separator cs).getLast? = some (afterLast separator cs) := by
  by_cases h : separator ∈ cs
  case neg => rw [Text.splitAt_eq_singleton h, afterLast_eq_self h, List.getLast?_singleton]
  case pos =>
    obtain ⟨outside, before, whole⟩ := exists_afterLast h
    nth_rewrite 1 [whole]
    rw [Text.splitAt_append, Text.splitAt_eq_singleton outside, List.getLast?_concat]

-- A run for which a channel has other text: it comes before the channel, and a full version is one of
-- an SDK.
def IsDue (i : ImageReference) (c : Channel) (r : LocatedRun) : Prop :=
  r.version.IsBelow c ∧ (r.version.numbers.length < 3 ∨
    (Text.splitAt '/' i.repository.toList).getLast? = some "sdk".toList)

instance : Decidable (i.IsDue c r) :=
  inferInstanceAs (Decidable (_ ∧ _))

theorem isDue_iff : i.IsDue c r ↔ i.moves r.version ∧ r.version.isAtLeast c = false := by
  rw [IsDue, RunVersion.isBelow_iff, getLast?_splitAt, and_comm]
  cases r.version <;> simp [moves, isSdkImage, RunVersion.numbers]

-- The due runs of a tag are replaced, and nothing else is.
theorem splice_written (h : TagPart.IsTag parts cs) : ∃ edits,
    List.Forall₂ (LocatedRun.IsReplacedBy c)
      ((runsFrom offset parts).filter fun r => i.IsDue c r) edits ∧
      Splice offset cs edits (i.written c parts) := by
  induction h generalizing offset with
  | nil => exact ⟨[], .nil, .done⟩
  | @separator d _ _ hd _ ih =>
    have width : offset + 1 = offset + Text.byteLength [d] := by
      simp [utf8Size_of_isSeparator d hd]
    rw [runsFrom_separator hd, written_separator, width]
    obtain ⟨edits, replaced, splice⟩ := @ih (offset + Text.byteLength [d])
    exact ⟨edits, replaced, splice.prepend [d]⟩
  | @piece piece part parts cs hp inside cut tail ih =>
    obtain ⟨_, text, _⟩ := TagPart.of_ofPiece hp
    rw [written_cons, ← text]
    obtain ⟨edits, replaced, splice⟩ := @ih (offset + Text.byteLength part.text.toList)
    cases hv : part.version? with
    | none =>
      have stays : i.isBelow c part = false := by simp [isBelow, hv]
      rw [runsFrom_of_none hv, upgradedPart_of_not_isBelow stays]
      exact ⟨edits, replaced, splice.prepend _⟩
    | some v =>
      rw [runsFrom_of_some hv]
      generalize hr : LocatedRun.mk offset (offset + Text.byteLength part.text.toList) v = r
      have below : i.isBelow c part = i.IsDue c r := by simp [isBelow, hv, isDue_iff, ← hr]
      by_cases due : i.IsDue c r
      case neg =>
        have stays : i.isBelow c part = false := by simpa [← below] using due
        rw [List.filter_cons_of_neg (by simpa using due), upgradedPart_of_not_isBelow stays]
        exact ⟨edits, replaced, splice.prepend _⟩
      case pos =>
        obtain ⟨w, hw, _, _, moved⟩ := upgradedPart_of_isBelow (below ▸ due)
        obtain rfl : v = w := Option.some.inj (hv.symm.trans hw)
        rw [List.filter_cons_of_pos (by simpa using due), moved]
        have order : offset ≤ offset + Text.byteLength part.text.toList := Nat.le_add_right ..
        let e : EditSpan := ⟨⟨offset, _, order⟩, v.upgraded c⟩
        have first : r.IsReplacedBy c e := hr ▸ ⟨rfl, rfl, v.upgraded_eq c⟩
        exact ⟨e :: edits, .cons first replaced, @Splice.edit offset [] _ _ _ e _ rfl rfl splice⟩

-- A reference is its repository, its tag and its digest. Its runs are those of the tag, in order, and
-- the text for a channel has other text in the place of the runs that are due, and nowhere else.
theorem runs_upgraded (h : parse text = .ok i) :
    text.toList = i.repository.toList ++ ':' :: i.tagText.toList ++ digestText i.digest ∧
      ':' ∉ i.tagText.toList ∧ '/' ∉ i.tagText.toList ∧
      '@' ∉ i.repository.toList ++ ':' :: i.tagText.toList ∧
      i.runs.Pairwise (fun r s => r.stop < s.start) ∧
      (∀ r, r ∈ i.runs ↔
        r.LiesIn (Text.byteLength i.repository.toList + 1) i.tagText.toList) ∧
      ∀ c, ∃ edits,
        List.Forall₂ (LocatedRun.IsReplacedBy c) (i.runs.filter fun r => i.IsDue c r) edits ∧
          Splice 0 text.toList edits (i.upgraded c).toList := by
  have ⟨tag, isRead⟩ := isRead_of_parse h
  rw [tagText_of_isRead isRead]
  refine ⟨isRead.text, isRead.colon, isRead.slash, isRead.digest, pairwise_runsFrom isRead.parts,
    fun r => mem_runsFrom_iff isRead.parts, fun c => ?_⟩
  obtain ⟨edits, replaced, splice⟩ := @splice_written c tag i i.tag
    (Text.byteLength i.repository.toList + 1) isRead.parts
  have front : Text.byteLength i.repository.toList + 1
      = 0 + Text.byteLength (i.repository.toList ++ [':']) := by
    have one : ':'.utf8Size = 1 := rfl
    simp [one]
  rw [front] at splice
  have whole := (splice.prepend _).append (digestText i.digest)
  rw [List.append_assoc, List.append_assoc] at whole
  refine ⟨edits, replaced, ?_⟩
  rw [isRead.text, toList_upgraded]
  simpa using whole

theorem runs_upgraded_port :
    let text := "localhost:5000/dotnet/sdk:6.0.100-alpine3.18_07--5@sha256:0f"
    ∃ i, parse text = .ok i ∧
    text.toList = i.repository.toList ++ ':' :: i.tagText.toList ++ digestText i.digest ∧
      ':' ∉ i.tagText.toList ∧ '/' ∉ i.tagText.toList ∧
      '@' ∉ i.repository.toList ++ ':' :: i.tagText.toList ∧
      i.runs.Pairwise (fun r s => r.stop < s.start) ∧
      (∀ r, r ∈ i.runs ↔
        r.LiesIn (Text.byteLength i.repository.toList + 1) i.tagText.toList) ∧
      ∀ c, ∃ edits,
        List.Forall₂ (LocatedRun.IsReplacedBy c) (i.runs.filter fun r => i.IsDue c r) edits ∧
          Splice 0 text.toList edits (i.upgraded c).toList := by
  intro text
  have h : parse text = .ok ⟨"localhost:5000/dotnet/sdk", [.run "6.0.100" (.patch 6 0 100),
      .separator '-', .other "alpine3.18", .separator '_', .run "07" (.major 7), .separator '-',
      .separator '-', .run "5" (.major 5)], some "sha256:0f"⟩ := by
    decide +kernel
  exact ⟨_, h, runs_upgraded h⟩

end ImageReference
end Repin
