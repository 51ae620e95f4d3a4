import Repin.Proofs.Version.FloatingLines
import Repin.Proofs.Version.ImageRuns
import Repin.Proofs.Version.MovedImage
/-!
# SDK versions within expressions and images

For a full version a channel has the text of its SDK, which is written in a grammar of its own. No
expression has the plus sign of build metadata. A tag is cut at the hyphens of the labels and of the
build metadata, so that what stands between them may be taken for runs.

Main statement: `Channel.embeds_iff`.
-/
namespace Repin

variable {c : Channel} {cs : List Char} {d : Char}

namespace FloatingExpr

variable {e : FloatingExpr}

-- What an expression is made of.
def isExprChar (d : Char) : Bool :=
  isLabelChar d || d == '.' || d == '*'

theorem isExprChar_of_isLabelChar (h : isLabelChar d) : isExprChar d := by
  simp [isExprChar, h]

theorem isExprChar_of_readNumber {n : UInt64} (h : Text.readNumber cs = some n) :
    ∀ d ∈ cs, isExprChar d :=
  fun d hd => isExprChar_of_isLabelChar <|
    isLabelChar_of_isDigit ((Text.readNumber_eq_some h).right d hd)

theorem isExprChar_of_readSegment {n : UInt64} (h : readSegment cs = .ok n) :
    ∀ d ∈ cs, isExprChar d := by
  unfold readSegment at h
  split at h
  case h_1 hn => exact isExprChar_of_readNumber hn
  case h_2 => cases h

theorem isExprChar_of_readWildcard {w : Wildcard} (h : Wildcard.read? cs = some w) :
    ∀ d ∈ cs, isExprChar d := by
  unfold Wildcard.read? at h
  split at h
  case h_4 => cases h
  all_goals exact List.forall_mem_singleton.mpr rfl

theorem isExprChar_of_readBand {b : UInt64 × BandSuffix} (h : readBand cs = .ok b) :
    ∀ d ∈ cs, isExprChar d := by
  have ending {cs : List Char} {s : BandSuffix} (h : BandSuffix.read? cs = some s) :
      ∀ d ∈ cs, isExprChar d := by
    unfold BandSuffix.read? at h
    split at h
    case h_3 => cases h
    all_goals exact List.forall_mem_cons.mpr ⟨rfl, List.forall_mem_singleton.mpr rfl⟩
  unfold readBand at h
  dsimp only at h
  split at h
  case isTrue => cases h
  case isFalse =>
    split at h
    case h_1 => cases h
    case h_2 digits suffix hs =>
      split at h
      case h_2 => cases h
      case h_1 hb hn =>
        rw [← (Text.append_of_splitAtByte hs).left, List.forall_mem_append]
        exact ⟨isExprChar_of_readNumber hn, ending hb⟩

theorem isExprChar_of_splitAt (h : ∀ piece ∈ Text.splitAt '.' cs, ∀ d ∈ piece, isExprChar d) :
    ∀ d ∈ cs, isExprChar d := by
  intro d hd
  by_cases dot : d = '.'
  case pos => simp [dot, isExprChar]
  case neg =>
    have ⟨piece, hp, hm⟩ := Text.exists_mem_splitAt hd dot
    exact h piece hp d hm

theorem isExprChar_of_readCore (h : readCore cs = .ok e) : ∀ d ∈ cs, isExprChar d := by
  apply isExprChar_of_splitAt
  unfold readCore at h
  split at h
  case h_1 first hs =>
    obtain ⟨_, hm, _⟩ := bind_eq_ok.mp h
    rw [hs, List.forall_mem_singleton]
    exact isExprChar_of_readSegment hm
  case h_2 first second hs =>
    obtain ⟨_, hm, h⟩ := bind_eq_ok.mp h
    rw [hs, List.forall_mem_cons, List.forall_mem_singleton]
    refine ⟨isExprChar_of_readSegment hm, ?_⟩
    split at h
    case h_1 hn => exact isExprChar_of_readNumber hn
    case h_2 hw => exact isExprChar_of_readWildcard hw
    case h_3 => cases h
  case h_3 first second third hs =>
    obtain ⟨_, hm, h⟩ := bind_eq_ok.mp h
    obtain ⟨_, hn, h⟩ := bind_eq_ok.mp h
    rw [hs, List.forall_mem_cons, List.forall_mem_cons, List.forall_mem_singleton]
    refine ⟨isExprChar_of_readSegment hm, isExprChar_of_readSegment hn, ?_⟩
    split at h
    case h_1 hp => exact isExprChar_of_readNumber hp
    case h_2 hw => exact isExprChar_of_readWildcard hw
    case h_3 =>
      obtain ⟨_, hb, _⟩ := bind_eq_ok.mp h
      exact isExprChar_of_readBand hb
  case h_4 => cases h

theorem isExprChar_of_parseLabel {l : PreLabel} (h : PreLabel.parse? cs = some l) :
    ∀ d ∈ cs, isExprChar d := by
  unfold PreLabel.parse? at h
  split at h
  case isTrue digits =>
    have digits := List.all_eq_true.mp digits
    exact fun d hd => isExprChar_of_isLabelChar (isLabelChar_of_isDigit (digits d hd))
  case isFalse =>
    dsimp only at h
    split at h
    case isFalse => cases h
    case isTrue isAlpha =>
      have label := List.all_eq_true.mp isAlpha.left
      rw [String.toList_ofList] at label
      exact fun d hd => isExprChar_of_isLabelChar (label d hd)

-- Nothing else stands in a text that is read as an expression.
theorem isExprChar_of_read (h : read cs = .ok e) : ∀ d ∈ cs, isExprChar d := by
  unfold read at h
  cases hs : Text.splitOnce '-' cs with
  | none =>
    simp only [hs] at h
    obtain ⟨_, core, _⟩ := bind_eq_ok.mp h
    exact isExprChar_of_readCore core
  | some parts =>
    obtain ⟨core, labels⟩ := parts
    simp only [hs] at h
    obtain ⟨e', he, h⟩ := bind_eq_ok.mp h
    rw [(Text.splitOnce_eq_some_iff.mp hs).left, List.forall_mem_append, List.forall_mem_cons]
    refine ⟨isExprChar_of_readCore he, by decide, isExprChar_of_splitAt fun piece hp => ?_⟩
    unfold addLabels at h
    dsimp only at h
    split at h
    case h_2 => cases h
    case h_1 =>
      split at h
      case h_2 => cases h
      case h_1 hl =>
        obtain ⟨l, parsed⟩ := exists_of_mem_mapM hl hp
        exact isExprChar_of_parseLabel parsed

-- Build metadata stands behind a plus sign.
theorem build_eq_none_of_read (h : read c.sdk.render.toList = .ok e) : c.sdk.build = none := by
  cases hb : c.sdk.build with
  | none => rfl
  | some build =>
    have plus : '+' ∈ c.sdk.render.toList := by
      rw [Semver.toList_render, Semver.buildText, hb]
      simp
    exact absurd (isExprChar_of_read h _ plus) (by decide)

end FloatingExpr

namespace FloatingList

variable {text new : String} {l l' : FloatingList} {e : FloatingEntry} {newline : Newline}

-- The text for a channel has a line with an expression in the shape of the highest one.
theorem exists_written (h : parse text = .ok l) (below : l.isAtLeast c = false)
    (highest : l.highest? = .ok (some e)) (hu : l.upgraded c newline = .ok new) :
    ∃ line indent rest comment,
      FloatingLine.IsEntry line indent (e.expr.upgraded c).toList rest comment ∧
        line ∈ Text.splitAt '\n' new.toList := by
  cases several : l.isMultiLine with
  | true =>
    obtain ⟨template, pieces, last, blank, behind, front, line, back, indent, mark, highest', _, _,
      lead, blanks, _, cut⟩ := exists_appended h several below hu
    cases highest.symm.trans highest'
    refine ⟨_, _, _, _, FloatingLine.isEntry_upgraded lead (FloatingLine.isTail_of_isBlank blanks)
      e.expr, ?_⟩
    simp [cut]
  | false =>
    have ⟨line, hl, he⟩ := List.mem_filterMap.mp (isHighest_of_highest? highest).mem
    cases (upgraded_of_sole below several).symm.trans hu
    cases line with
    | blank => cases he
    | entry indent written rest =>
      cases he
      have ⟨isEntry, _⟩ := FloatingLine.isEntry_of_read (read_text_of_mem h hl)
      refine ⟨_, _, _, _, FloatingLine.isEntry_upgraded isEntry.indent isEntry.tail e.expr, ?_⟩
      rw [splitAt_replaceOnly h]
      exact List.mem_map_of_mem (f := FloatingLine.moved c) hl

theorem build_eq_none_of_parse {m n p : UInt64} {labels : List PreLabel} (h : parse text = .ok l)
    (below : l.isAtLeast c = false) (highest : l.highest? = .ok (some e))
    (full : e.expr = .full m n p labels) (hu : l.upgraded c newline = .ok new)
    (again : parse new = .ok l') : c.sdk.build = none := by
  obtain ⟨line, indent, rest, comment, isEntry, hm⟩ := exists_written h below highest hu
  obtain ⟨_, _, read⟩ := exists_of_forall₂_left (lines_of_parse again) hm
  rw [isEntry.read_eq, map_eq_ok, String.ofList_toList, full] at read
  obtain ⟨_, parsed, _⟩ := read
  exact FloatingExpr.build_eq_none_of_read (mapError_eq_ok.mp parsed)

theorem settles_iff {m n p : UInt64} {labels : List PreLabel} (h : parse text = .ok l)
    (below : l.isAtLeast c = false) (highest : l.highest? = .ok (some e))
    (full : e.expr = .full m n p labels) (newline : Newline) :
    (∃ new l', l.upgraded c newline = .ok new ∧ parse new = .ok l' ∧ l'.isAtLeast c ∧
      l'.upgraded c newline = .ok new) ↔ c.sdk.build = none := by
  constructor
  case mp =>
    rintro ⟨new, l', hu, again, _⟩
    exact build_eq_none_of_parse h below highest full hu again
  case mpr =>
    intro release
    have ranks := (highest?_eq_ok_iff (entries_ne_nil h)).mp ⟨e, highest⟩
    obtain ⟨new, hu⟩ := exists_upgraded c newline h ranks
    obtain ⟨l', parsed, moved⟩ := exists_moved h below release hu
    refine ⟨new, l', hu, parsed, moved.isAtLeast, ?_⟩
    rw [upgraded_of_isAtLeast moved.isAtLeast, parse_text parsed]

end FloatingList

namespace TagPart

variable {parts qs : List TagPart} {tail : List Char} {v : RunVersion}

theorem IsTag.append (h : IsTag parts cs) (behind : IsTag qs tail) (cut : StartsCut tail) :
    IsTag (parts ++ qs) (cs ++ tail) := by
  induction h with
  | nil => exact behind
  | separator hd _ ih => exact .separator hd ih
  | @piece piece part parts cs hp inside starts _ ih =>
    rw [List.append_assoc, List.cons_append]
    refine .piece hp inside (fun d hd => ?_) ih
    cases cs with
    | nil => exact cut d hd
    | cons => exact starts d hd

theorem filterMap_version (offset : Nat) (parts : List TagPart) :
    parts.filterMap version? = (ImageReference.runsFrom offset parts).map LocatedRun.version := by
  induction parts generalizing offset with
  | nil => rfl
  | cons part parts ih =>
    cases hv : part.version? with
    | none => rw [List.filterMap_cons_none hv, ImageReference.runsFrom_of_none hv, ih]
    | some v => rw [List.filterMap_cons_some hv, ImageReference.runsFrom_of_some hv, List.map_cons, ih]

-- The numbers in a text that is cut like a tag.
def Holds (cs : List Char) (v : RunVersion) : Prop :=
  ∃ before piece after, IsPiece cs before piece after ∧ v.IsWritten piece

theorem exists_version_iff : (∃ part ∈ read cs, part.version? = some v) ↔ Holds cs v := by
  rw [← List.mem_filterMap, filterMap_version 0, List.mem_map]
  constructor
  case mp =>
    rintro ⟨r, hr, rfl⟩
    obtain ⟨before, piece, after, isPiece, written, _⟩ :=
      (ImageReference.mem_runsFrom_iff (isTag_read cs)).mp hr
    exact ⟨before, piece, after, isPiece, written⟩
  case mpr =>
    rintro ⟨before, piece, after, isPiece, written⟩
    let start := 0 + Text.byteLength before
    have lies : LocatedRun.LiesIn 0 cs ⟨start, start + Text.byteLength piece, v⟩ :=
      ⟨before, piece, after, isPiece, written, rfl, rfl⟩
    exact ⟨_, (ImageReference.mem_runsFrom_iff (isTag_read cs)).mpr lies, rfl⟩

end TagPart

namespace ImageReference

variable {i i' : ImageReference} {parts : List TagPart} {part : TagPart} {v w : RunVersion}
variable {text : String} {tag : List Char}

-- What a part is read as when the text for a channel is.
def rereadPart (i : ImageReference) (c : Channel) (part : TagPart) : List TagPart :=
  if i.isBelow c part then TagPart.read (i.upgradedPart c part).toList else [part]

-- The reference that is read from the text for a channel, if any is.
def reread (i : ImageReference) (c : Channel) : ImageReference :=
  { i with tag := i.tag.flatMap (i.rereadPart c) }

theorem isTag_reread (h : TagPart.IsTag parts cs) :
    TagPart.IsTag (parts.flatMap (i.rereadPart c)) (i.written c parts) := by
  induction h with
  | nil => exact .nil
  | @separator d _ _ hd _ ih =>
    have stays : i.rereadPart c (.separator d) = [.separator d] := rfl
    rw [written_separator, List.flatMap_cons, stays]
    exact .separator hd ih
  | @piece piece part parts cs hp inside cut tail ih =>
    have starts := startsCut_written (c := c) (i := i) tail cut
    rw [List.flatMap_cons, written_cons, rereadPart]
    split
    case isTrue => exact (TagPart.isTag_read _).append ih starts
    case isFalse stays =>
      rw [upgradedPart_of_not_isBelow (by simpa using stays), (TagPart.of_ofPiece hp).right.left]
      exact .piece hp inside starts ih

theorem isBlank_of_mem_written (h : IsRead cs tag i) :
    ∀ d ∈ i.written c i.tag, Text.isBlank d = false := by
  intro d hd
  obtain hd | ⟨v, hd⟩ := mem_written h.parts hd
  · exact h.blank d (by simp [h.text, hd])
  · cases hb : Text.isBlank d with
    | false => rfl
    | true =>
      have label : isLabelChar d = false := by
        cases hl : isLabelChar d with
        | false => rfl
        | true => simp [isBlank_of_isLabelChar hl] at hb
      refine absurd hd (v.not_mem_upgraded label ?_ ?_)
      all_goals
        rintro rfl
        exact absurd hb (by decide)

theorem isRead_reread (h : IsRead cs tag i) (versions : (i.reread c).versions ≠ []) :
    IsRead (i.upgraded c).toList (i.written c i.tag) (i.reread c) where
  text := toList_upgraded i c
  parts := isTag_reread h.parts
  tag_ne := by
    intro none
    have parts := (isTag_reread (i := i) (c := c) h.parts).read_eq
    rw [none] at parts
    apply versions
    simp [ImageReference.versions, reread, ← parts, TagPart.read, TagPart.readFrom, TagPart.ofPiece]
  colon := h.colon_not_mem_written
  slash := h.not_mem_written h.slash (by decide) (by decide) (by decide)
  digest := h.at_not_mem_newName
  digest_ne := h.digest_ne
  repository_ne := h.repository_ne
  ne_nil := by simp [toList_upgraded]
  blank := by
    have old := h.blank
    rw [h.text] at old
    simp only [List.forall_mem_append, List.forall_mem_cons] at old
    rw [toList_upgraded]
    simp only [List.forall_mem_append, List.forall_mem_cons]
    exact ⟨⟨old.left.left, rfl, isBlank_of_mem_written h⟩, old.right⟩
  versions := versions

-- The text for a channel is read as this reference or not at all.
theorem parse_upgraded_iff (h : parse text = .ok i) :
    parse (i.upgraded c) = .ok i' ↔ i' = i.reread c ∧ (i.reread c).versions ≠ [] := by
  have ⟨tag, old⟩ := isRead_of_parse h
  constructor
  case mp =>
    intro again
    have ⟨tag', read⟩ := isRead_of_parse again
    obtain ⟨repository, tags, digest⟩ :=
      read.eq_of_text (toList_upgraded i c) old.at_not_mem_newName old.colon_not_mem_written
    have parts : i'.tag = (i.reread c).tag := by
      rw [← read.parts.read_eq, tags, (isTag_reread old.parts).read_eq]
      rfl
    have same : i' = i.reread c := by
      cases i'
      simp_all [reread, String.toList_inj]
    exact ⟨same, same ▸ read.versions⟩
  case mpr =>
    rintro ⟨rfl, versions⟩
    exact mapError_eq_ok.mpr (read_of_isRead (isRead_reread old versions))

theorem isAtLeast_iff :
    i.isAtLeast c ↔ ∀ part ∈ i.tag, i.isBelow c part = false := by
  simp only [isAtLeast, versions, List.all_eq_true, List.mem_filter, List.mem_filterMap]
  constructor
  case mp =>
    intro h part hp
    cases hb : i.isBelow c part with
    | false => rfl
    | true =>
      obtain ⟨v, hv, below, moves, _⟩ := upgradedPart_of_isBelow hb
      have reached := h v ⟨⟨part, hp, hv⟩, moves⟩
      simp [below] at reached
  case mpr =>
    rintro h v ⟨⟨part, hp, hv⟩, moves⟩
    simpa [isBelow, hv, moves] using h part hp

-- A reference that reaches a channel keeps its text.
theorem upgraded_of_isAtLeast (h : parse text = .ok i) (reached : i.isAtLeast c) :
    i.upgraded c = text := by
  have ⟨tag, isRead⟩ := isRead_of_parse h
  have same : i.written c i.tag = tag := by
    rw [← isRead.parts.text_eq, written]
    congr 1
    apply List.map_congr_left
    intro part hp
    rw [upgradedPart_of_not_isBelow (isAtLeast_iff.mp reached part hp)]
  apply String.toList_inj.mp
  rw [toList_upgraded, same, isRead.text]

theorem moves_of_isSdkImage (sdk : i.isSdkImage) (v : RunVersion) : i.moves v := by
  cases v
  case patch => exact sdk
  all_goals rfl

-- The runs that are read from the text for a channel: those that reached it, and what the text of the
-- channel holds in the place of the others.
theorem mem_versions_reread_iff (sdk : i.isSdkImage) : w ∈ (i.reread c).versions ↔
    (∃ v ∈ i.versions, v.isAtLeast c = false ∧ TagPart.Holds (v.upgraded c).toList w) ∨
      w ∈ i.versions ∧ w.isAtLeast c := by
  have moves := moves_of_isSdkImage sdk
  simp only [versions, reread, List.filterMap_flatMap, List.mem_flatMap, List.mem_filterMap]
  constructor
  case mp =>
    rintro ⟨part, hp, hw⟩
    rw [rereadPart] at hw
    split at hw
    case isTrue hb =>
      obtain ⟨v, hv, below, _, moved⟩ := upgradedPart_of_isBelow hb
      rw [moved] at hw
      exact .inl ⟨v, ⟨part, hp, hv⟩, below, TagPart.exists_version_iff.mp hw⟩
    case isFalse hb =>
      have hw : part.version? = some w := by simpa using hw
      exact .inr ⟨⟨part, hp, hw⟩, by simpa [isBelow, hw, moves] using hb⟩
  case mpr =>
    rintro (⟨v, ⟨part, hp, hv⟩, below, held⟩ | ⟨⟨part, hp, hw⟩, reached⟩)
    · have hb : i.isBelow c part := by simp [isBelow, hv, moves, below]
      obtain ⟨v', hv', _, _, moved⟩ := upgradedPart_of_isBelow hb
      obtain rfl : v = v' := Option.some.inj (hv.symm.trans hv')
      refine ⟨part, hp, ?_⟩
      rw [rereadPart, if_pos hb, moved]
      exact TagPart.exists_version_iff.mpr held
    · have hb : i.isBelow c part = false := by simp [isBelow, hw, reached]
      exact ⟨part, hp, by simp [rereadPart, hb, hw]⟩

-- Fewer than three numbers have no labels behind them.
theorem holds_upgraded_iff (short : v.numbers.length < 3) :
    TagPart.Holds (v.upgraded c).toList w ↔ w = v.moved c := by
  have single {cs : List Char} (inside : ∀ d ∈ cs, ¬ TagPart.isSeparator d)
      (read : RunVersion.read? cs = some (v.moved c)) : TagPart.Holds cs w ↔ w = v.moved c := by
    have cut : TagPart.StartsCut [] := by simp [TagPart.StartsCut]
    have ne : cs ≠ [] := by rintro rfl; cases read
    have ⟨part, parts, _, version⟩ := TagPart.ofPiece_eq ne
    have whole := TagPart.read_append inside cut
    rw [List.append_nil, parts] at whole
    rw [← TagPart.exists_version_iff, whole]
    simp [version.trans read, TagPart.read, TagPart.readFrom, TagPart.ofPiece, eq_comm]
  cases v
  case major => exact single (RunVersion.isSeparator_writeNumber _) (RunVersion.read?_major _)
  case minor => exact single (RunVersion.isSeparator_render c) (RunVersion.read?_minor c)
  case patch => simp [RunVersion.numbers] at short

-- When an image of an SDK settles at a channel.
theorem settles_iff (h : parse text = .ok i) (sdk : i.isSdkImage) (hv : v ∈ i.versions)
    (full : v.numbers.length = 3) (below : v.isAtLeast c = false) :
    (∃ i', parse (i.upgraded c) = .ok i' ∧ i'.isAtLeast c ∧ i'.upgraded c = i.upgraded c) ↔
      (∀ w, TagPart.Holds c.sdk.render.toList w → w.isAtLeast c) ∧
        ((∃ w, TagPart.Holds c.sdk.render.toList w) ∨
          ∃ w ∈ i.versions, w.numbers.length < 3 ∨ w.isAtLeast c) := by
  have upgraded {v : RunVersion} (full : ¬ v.numbers.length < 3) : v.upgraded c = c.sdk.render := by
    cases v
    case patch => rfl
    all_goals simp [RunVersion.numbers] at full
  have placed {w} (held : TagPart.Holds c.sdk.render.toList w) : w ∈ (i.reread c).versions :=
    (mem_versions_reread_iff sdk).mpr (.inl ⟨v, hv, below, upgraded (v := v) (by omega) ▸ held⟩)
  have reached : (i.reread c).isAtLeast c ↔ ∀ w ∈ (i.reread c).versions, w.isAtLeast c := by
    have moves : (i.reread c).moves = i.moves := rfl
    simp [isAtLeast, moves, moves_of_isSdkImage sdk]
  simp only [parse_upgraded_iff h]
  constructor
  case mp =>
    rintro ⟨_, ⟨rfl, some⟩, all, _⟩
    refine ⟨fun w held => reached.mp all w (placed held), ?_⟩
    obtain ⟨w, hw⟩ := List.exists_mem_of_ne_nil _ some
    obtain ⟨u, hu, _, held⟩ | ⟨hw, high⟩ := (mem_versions_reread_iff sdk).mp hw
    · by_cases short : u.numbers.length < 3
      case pos => exact .inr ⟨u, hu, .inl short⟩
      case neg => exact .inl ⟨w, upgraded short ▸ held⟩
    · exact .inr ⟨w, hw, .inr high⟩
  case mpr =>
    rintro ⟨high, some⟩
    have all : (i.reread c).isAtLeast c := by
      rw [reached]
      intro w hw
      obtain ⟨u, _, _, held⟩ | ⟨_, high⟩ := (mem_versions_reread_iff sdk).mp hw
      · by_cases short : u.numbers.length < 3
        case pos =>
          rw [(holds_upgraded_iff short).mp held]
          exact RunVersion.isAtLeast_moved c u
        case neg => exact high w (upgraded short ▸ held)
      · exact high
    have ne : (i.reread c).versions ≠ [] := by
      obtain ⟨w, held⟩ | ⟨w, hw, kept⟩ := some
      · exact List.ne_nil_of_mem (placed held)
      · cases below : w.isAtLeast c with
        | true => exact List.ne_nil_of_mem ((mem_versions_reread_iff sdk).mpr (.inr ⟨hw, below⟩))
        | false =>
          have short : w.numbers.length < 3 := kept.resolve_right (by simp [below])
          exact List.ne_nil_of_mem ((mem_versions_reread_iff sdk).mpr
            (.inl ⟨w, hw, below, (holds_upgraded_iff short).mpr rfl⟩))
    have again := (parse_upgraded_iff h).mpr ⟨rfl, ne⟩
    exact ⟨_, ⟨rfl, ne⟩, all, upgraded_of_isAtLeast again all⟩

end ImageReference

namespace Channel

-- Where a channel supplies a full version, the new text is accepted again, reaches the channel and
-- stays as it is for the channel: in a list exactly if the SDK has no build metadata, and in a tag
-- exactly if every run that the text of the SDK holds between its hyphens reaches the channel, and some
-- run is left.
theorem embeds_iff (c : Channel) :
    (∀ (text : String) (l : FloatingList) (e : FloatingEntry) (m n p : UInt64) (labels : List PreLabel)
      (newline : Newline), FloatingList.parse text = .ok l → l.isAtLeast c = false →
        l.highest? = .ok (some e) → e.expr = .full m n p labels →
          ((∃ new l', l.upgraded c newline = .ok new ∧ FloatingList.parse new = .ok l' ∧
            l'.isAtLeast c ∧ l'.upgraded c newline = .ok new) ↔ c.sdk.build = none)) ∧
    ∀ (text : String) (i : ImageReference) (v : RunVersion), ImageReference.parse text = .ok i →
      i.isSdkImage → v ∈ i.versions → v.numbers.length = 3 → v.isAtLeast c = false →
        ((∃ i', ImageReference.parse (i.upgraded c) = .ok i' ∧ i'.isAtLeast c ∧
          i'.upgraded c = i.upgraded c) ↔
            (∀ w, TagPart.Holds c.sdk.render.toList w → w.isAtLeast c) ∧
              ((∃ w, TagPart.Holds c.sdk.render.toList w) ∨
                ∃ w ∈ i.versions, w.numbers.length < 3 ∨ w.isAtLeast c)) :=
  ⟨fun _ _ _ _ _ _ _ newline h below highest full =>
      FloatingList.settles_iff h below highest full newline,
    fun _ _ _ h sdk hv full below => ImageReference.settles_iff h sdk hv full below⟩

theorem embeds_iff_preview : ∃ c l i, ofTexts "8.0" (some "8.0.100-preview.1") none none = .ok c ∧
    FloatingList.parse "6.0.100" = .ok l ∧ l.isAtLeast c = false ∧
      l.highest? = .ok (some ⟨.full 6 0 100 [], none⟩) ∧
        ImageReference.parse "dotnet/sdk:6.0.100-alpine" = .ok i ∧ i.isSdkImage ∧
          .patch 6 0 100 ∈ i.versions ∧ (RunVersion.patch 6 0 100).isAtLeast c = false ∧
            ((∃ new l', l.upgraded c .lf = .ok new ∧ FloatingList.parse new = .ok l' ∧
              l'.isAtLeast c ∧ l'.upgraded c .lf = .ok new) ↔ c.sdk.build = none) ∧
            ((∃ i', ImageReference.parse (i.upgraded c) = .ok i' ∧ i'.isAtLeast c ∧
              i'.upgraded c = i.upgraded c) ↔
                (∀ w, TagPart.Holds c.sdk.render.toList w → w.isAtLeast c) ∧
                  ((∃ w, TagPart.Holds c.sdk.render.toList w) ∨
                    ∃ w ∈ i.versions, w.numbers.length < 3 ∨ w.isAtLeast c)) := by
  have channel : ofTexts "8.0" (some "8.0.100-preview.1") none none
      = .ok ⟨⟨8, 0, 100, [.alpha "preview" (by decide), .numeric 1], none⟩, .lts, .active⟩ := by
    decide +kernel
  have list : FloatingList.parse "6.0.100"
      = .ok ⟨[.entry "" "6.0.100" "" ⟨.full 6 0 100 [], none⟩]⟩ := by
    decide +kernel
  have image : ImageReference.parse "dotnet/sdk:6.0.100-alpine"
      = .ok ⟨"dotnet/sdk", [.run "6.0.100" (.patch 6 0 100), .separator '-', .other "alpine"],
          none⟩ := by
    decide +kernel
  have both := embeds_iff
    ⟨⟨8, 0, 100, [.alpha "preview" (by decide), .numeric 1], none⟩, .lts, .active⟩
  exact ⟨_, _, _, channel, list, by decide, rfl, image, by decide, by decide, by decide,
    both.left _ _ _ _ _ _ _ .lf list (by decide) rfl rfl,
    both.right _ _ (.patch 6 0 100) image (by decide) (by decide) rfl (by decide)⟩

-- Build metadata makes an expression unreadable, and a label of digits is taken for a run.
theorem not_embeds_label_or_build :
    (∃ c l, ofTexts "8.0" (some "8.0.100+build.5") none none = .ok c ∧
      FloatingList.parse "6.0.100" = .ok l ∧ l.isAtLeast c = false ∧
        l.upgraded c .lf = .ok "8.0.100+build.5" ∧
          ¬ ∃ l', FloatingList.parse "8.0.100+build.5" = .ok l') ∧
    ∃ c i, ofTexts "8.0" (some "8.0.100-1") none none = .ok c ∧
      ImageReference.parse "dotnet/sdk:6.0.100" = .ok i ∧ i.isSdkImage ∧ i.isAtLeast c = false ∧
        i.upgraded c = "dotnet/sdk:8.0.100-1" ∧
          ∃ i', ImageReference.parse (i.upgraded c) = .ok i' ∧ i'.isAtLeast c = false ∧
            i'.upgraded c = "dotnet/sdk:8.0.100-8" := by
  constructor
  case left =>
    have channel : ofTexts "8.0" (some "8.0.100+build.5") none none
        = .ok ⟨⟨8, 0, 100, [], some ⟨"build.5", by decide⟩⟩, .lts, .active⟩ := by
      decide +kernel
    have list : FloatingList.parse "6.0.100"
        = .ok ⟨[.entry "" "6.0.100" "" ⟨.full 6 0 100 [], none⟩]⟩ := by
      decide +kernel
    have written : FloatingList.upgraded ⟨[.entry "" "6.0.100" "" ⟨.full 6 0 100 [], none⟩]⟩
        ⟨⟨8, 0, 100, [], some ⟨"build.5", by decide⟩⟩, .lts, .active⟩ .lf = .ok "8.0.100+build.5" := by
      decide +kernel
    refine ⟨_, _, channel, list, by decide, written, ?_⟩
    rintro ⟨l', read⟩
    cases FloatingList.build_eq_none_of_parse list (by decide) rfl rfl written read
  case right =>
    have channel : ofTexts "8.0" (some "8.0.100-1") none none
        = .ok ⟨⟨8, 0, 100, [.numeric 1], none⟩, .lts, .active⟩ := by
      decide +kernel
    have image : ImageReference.parse "dotnet/sdk:6.0.100"
        = .ok ⟨"dotnet/sdk", [.run "6.0.100" (.patch 6 0 100)], none⟩ := by
      decide +kernel
    have again : ImageReference.parse "dotnet/sdk:8.0.100-1"
        = .ok ⟨"dotnet/sdk", [.run "8.0.100" (.patch 8 0 100), .separator '-', .run "1" (.major 1)],
            none⟩ := by
      decide +kernel
    exact ⟨_, _, channel, image, by decide, by decide, by decide +kernel, _, again, by decide,
      by decide +kernel⟩

end Channel
end Repin
