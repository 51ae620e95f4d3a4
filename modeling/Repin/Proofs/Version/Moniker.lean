import Mathlib.Data.List.Basic
import Repin.Proofs.Except
import Repin.Proofs.Text.Blank
import Repin.Proofs.Text.Decimal
import Repin.Proofs.Text.Split
import Repin.Proofs.Version.Numeric
import Repin.Version.Moniker
/-!
# Lists of monikers

The moniker written for a channel is read back as the channel, from version five on; below five it is
no moniker. The pieces around it are read as before, so a list moved to a channel reaches it.
-/
namespace Repin

variable {c : Channel} {cs : List Char}

namespace Moniker

variable {platform : Option String} {m : Moniker} {ds es : List Char}

-- What a moniker has behind its version.
def platformText : Option String → List Char
  | some platform => '-' :: platform.toList
  | none => []

theorem toList_forChannel (c : Channel) (platform : Option String) :
    (forChannel c platform).toList = 'n' :: 'e' :: 't' :: ((Text.writeNumber c.major).toList ++
      '.' :: ((Text.writeNumber c.minor).toList ++ platformText platform)) := by
  cases platform <;> simp [forChannel, platformText, Channel.render]

theorem readClassic_eq_none (h : '.' ∈ cs) : readClassic cs = none := by
  unfold readClassic
  split
  case h_1 a b =>
    apply if_neg
    rintro ⟨ha, -, hb⟩
    simp only [List.mem_cons, List.not_mem_nil, or_false] at h
    obtain rfl | rfl := h
    · exact absurd ha (by decide)
    · exact absurd hb (by decide)
  case h_2 a b d =>
    apply if_neg
    rintro ⟨ha, -, hb, hd⟩
    simp only [List.mem_cons, List.not_mem_nil, or_false] at h
    obtain rfl | rfl | rfl := h
    · exact absurd ha (by decide)
    · exact absurd hb (by decide)
    · exact absurd hd (by decide)
  case h_3 => rfl

theorem readDotted_append (dot : '.' ∉ ds) (dot' : '.' ∉ es) : readDotted (ds ++ '.' :: es)
    = (Text.readNumber ds).bind fun m => (Text.readNumber es).map fun n => .release m (some n) none := by
  rw [readDotted, Text.splitAt_append_separator dot, Text.splitAt_eq_singleton dot']
  cases hm : Text.readNumber ds <;> cases hn : Text.readNumber es <;> simp [hm, hn]

theorem readDotted_pair (m n : UInt64) :
    readDotted ((Text.writeNumber m).toList ++ '.' :: (Text.writeNumber n).toList)
      = some (.release m (some n) none) := by
  have dot (k : UInt64) : '.' ∉ (Text.writeNumber k).toList := Text.not_mem_writeNumber (by decide)
  simp [readDotted_append (dot m) (dot n), Text.readNumber_writeNumber]

theorem readNet_pair (m n : UInt64) (hp : platform ≠ some "") :
    readNet ((Text.writeNumber m).toList ++ '.' :: ((Text.writeNumber n).toList ++
      platformText platform))
      = if m < 5 then .error .versionBelowFive
        else .ok ⟨.net, .release m (some n) none, platform⟩ := by
  have hyphen (k : UInt64) : '-' ∉ (Text.writeNumber k).toList := Text.not_mem_writeNumber (by decide)
  have outside : '-' ∉ (Text.writeNumber m).toList ++ '.' :: (Text.writeNumber n).toList := by
    simp [hyphen]
  have dotted := readDotted_pair m n
  unfold readNet
  rw [readClassic_eq_none (by simp)]
  cases platform with
  | none =>
    by_cases hm : m < 5 <;>
      simp [platformText, Text.splitOnce_eq_none outside, dotted, hm, NumericVersion.release, bind,
        Except.bind, pure, Except.pure, throw, throwThe, MonadExceptOf.throw]
  | some p =>
    have ⟨d, ds, hd⟩ : ∃ d ds, p.toList = d :: ds := by
      cases hd : p.toList
      case nil => exact absurd (congrArg some (String.toList_eq_nil_iff.mp hd)) hp
      case cons d ds => exact ⟨d, ds, rfl⟩
    have back : String.ofList (d :: ds) = p := by rw [← hd, String.ofList_toList]
    have cut : Text.splitOnce '-' (_ ++ '-' :: d :: ds) = _ := Text.splitOnce_append outside
    simp only [List.append_assoc, List.cons_append] at cut
    by_cases hm : m < 5 <;>
      simp [platformText, hd, cut, back, dotted, hm, NumericVersion.release, bind, Except.bind, pure,
        Except.pure, throw, throwThe, MonadExceptOf.throw]

-- Without a platform, two numbers stand behind `net`, the first of which is five or more.
theorem readNet_eq_ok_iff (dot : '.' ∉ ds) (dot' : '.' ∉ es) (hyphen : '-' ∉ ds ++ '.' :: es) :
    readNet (ds ++ '.' :: es) = .ok m ↔ ∃ a b, Text.readNumber ds = some a ∧ Text.readNumber es = some b ∧
      5 ≤ a ∧ m = ⟨.net, .release a (some b) none, none⟩ := by
  have classic : readClassic (ds ++ '.' :: es) = none := readClassic_eq_none (by simp)
  cases ha : Text.readNumber ds with
  | none =>
    simp [readNet, classic, Text.splitOnce_eq_none hyphen, readDotted_append dot dot', ha, bind,
      Except.bind, pure, Except.pure, throw, throwThe, MonadExceptOf.throw]
  | some a =>
    cases hb : Text.readNumber es with
    | none =>
      simp [readNet, classic, Text.splitOnce_eq_none hyphen, readDotted_append dot dot', ha, hb, bind,
        Except.bind, pure, Except.pure, throw, throwThe, MonadExceptOf.throw]
    | some b =>
      have five : 5 ≤ a ↔ ¬ a < 5 := UInt64.not_lt.symm
      by_cases low : a < 5 <;>
        simp [readNet, classic, Text.splitOnce_eq_none hyphen, readDotted_append dot dot', ha, hb, five,
          low, NumericVersion.release, bind, Except.bind, pure, Except.pure, throw, throwThe,
          MonadExceptOf.throw, eq_comm]

theorem toLower_of_isDigit {d : Char} (h : d.isDigit) : d.toLower = d := by
  unfold Char.toLower
  apply dif_neg
  rintro ⟨low, -⟩
  simp only [Char.isDigit, Bool.and_eq_true, decide_eq_true_eq] at h
  exact absurd (UInt32.le_trans low h.right) (by decide)

-- Longer family names go on with one of two letters.
theorem read_of_net {d : Char} {ds : List Char} (standard : 's' ≠ d.toLower) (core : 'c' ≠ d.toLower) :
    read ('n' :: 'e' :: 't' :: d :: ds) = readNet (d :: ds) := by
  simp [read, Text.lowercase, Text.stripStart?, standard, core]

theorem read_forChannel (hp : platform ≠ some "") :
    read (forChannel c platform).toList = if c.major < 5 then .error .versionBelowFive
      else .ok ⟨.net, .release c.major (some c.minor) none, platform⟩ := by
  rw [toList_forChannel, ← readNet_pair c.major c.minor hp]
  have ne := Text.writeNumber_ne_nil (n := c.major)
  cases hd : (Text.writeNumber c.major).toList
  case nil => contradiction
  case cons d ds =>
    have digit : d.isDigit := Text.isDigit_of_mem_writeNumber (n := c.major) (by simp [hd])
    apply read_of_net <;>
    · rw [toLower_of_isDigit digit]
      rintro rfl
      cases digit

-- A platform is the end of the text of its moniker, behind a hyphen.
theorem readNet_platform {p : String} (h : readNet cs = .ok m) (hp : m.platform = some p) :
    p ≠ "" ∧ ∃ before, cs = before ++ '-' :: p.toList := by
  unfold readNet at h
  split at h
  case h_1 =>
    cases h
    cases hp
  case h_2 =>
    simp only [bind, Except.bind, pure, Except.pure, throw, throwThe, MonadExceptOf.throw] at h
    split at h
    case h_1 =>
      repeat' split at h
      all_goals cases h
      cases hp
    case h_2 => cases h
    case h_3 before after ne hs =>
      have hm : m.platform = some (String.ofList after) := by
        repeat' split at h
        all_goals cases h
        rfl
      have he : p = String.ofList after := by simpa [hp] using hm
      have ⟨heq, _⟩ := Text.splitOnce_eq_some_iff.mp hs
      refine ⟨?_, before, by simp [heq, he]⟩
      rintro rfl
      exact ne (by simpa using he)

theorem read_platform {p : String} (h : read cs = .ok m) (hp : m.platform = some p) :
    p ≠ "" ∧ ∃ before, cs = before ++ '-' :: p.toList := by
  unfold read at h
  dsimp only at h
  split at h
  case h_1 => cases h; cases hp
  case h_2 => split at h <;> cases h; cases hp
  case h_3 =>
    split at h
    case h_1 => split at h <;> cases h; cases hp
    case h_2 =>
      split at h
      case h_1 =>
        have ⟨ne, before, hb⟩ := readNet_platform h hp
        exact ⟨ne, cs.take 3 ++ before, by rw [List.append_assoc, ← hb, List.take_append_drop]⟩
      case h_2 => cases h

theorem platform_ne (h : read cs = .ok m) : m.platform ≠ some "" :=
  fun hp => (read_platform h hp).left rfl

theorem forChannel_ne_nil : (forChannel c platform).toList ≠ [] := by
  simp [toList_forChannel]

-- The characters that a channel can bring into a list.
def IsWritten (d : Char) : Prop :=
  d.isAlphanum ∨ d = '.' ∨ d = '-' ∨ d = ';'

theorem mem_forChannel {d : Char} (h : read cs = .ok m) (hd : d ∈ (forChannel c m.platform).toList) :
    d ∈ cs ∨ IsWritten d := by
  have digit {n : UInt64} (hn : d ∈ (Text.writeNumber n).toList) : IsWritten d :=
    .inl (by simp [Char.isAlphanum, Text.isDigit_of_mem_writeNumber hn])
  simp only [toList_forChannel, List.mem_cons, List.mem_append] at hd
  obtain rfl | rfl | rfl | hd | rfl | hd | hd := hd
  case inr.inr.inr.inl => exact .inr (digit hd)
  case inr.inr.inr.inr.inr.inl => exact .inr (digit hd)
  case inr.inr.inr.inr.inr.inr =>
    cases hp : m.platform with
    | none => simp [hp, platformText] at hd
    | some p =>
      obtain ⟨_, before, heq⟩ := read_platform h hp
      rw [hp, platformText, List.mem_cons] at hd
      obtain rfl | hd := hd
      · exact .inr (by simp [IsWritten])
      · exact .inl (by simp [heq, hd])
  all_goals exact .inr (by simp [IsWritten])

-- A moved moniker ends as the old one did, or in a digit.
theorem isTrimmed_forChannel (h : read cs = .ok m) (ht : Text.IsTrimmed cs) :
    Text.IsTrimmed (forChannel c m.platform).toList where
  head d hd := by
    rw [toList_forChannel] at hd
    cases hd
    decide
  last d hd := by
    have back (front tail : List Char) (ne : tail ≠ [])
        (heq : (forChannel c m.platform).toList = front ++ tail) : tail.getLast? = some d := by
      rwa [heq, List.getLast?_append_of_ne_nil front ne] at hd
    cases hp : m.platform with
    | none =>
      have hm := List.mem_of_getLast? <|
        back ('n' :: 'e' :: 't' :: ((Text.writeNumber c.major).toList ++ ['.'])) _
          (Text.writeNumber_ne_nil (n := c.minor))
          (by simp [toList_forChannel, hp, platformText])
      exact Text.isBlank_of_isDigit (Text.isDigit_of_mem_writeNumber hm)
    | some p =>
      have ⟨ne, before, heq⟩ := read_platform h hp
      have ne : p.toList ≠ [] := fun hn => ne (String.toList_eq_nil_iff.mp hn)
      have whole : cs = (before ++ ['-']) ++ p.toList := by simp [heq]
      apply ht.last d
      rw [whole, List.getLast?_append_of_ne_nil _ ne]
      exact back ('n' :: 'e' :: 't' :: ((Text.writeNumber c.major).toList ++
        '.' :: ((Text.writeNumber c.minor).toList ++ ['-']))) _ ne
        (by simp [toList_forChannel, hp, platformText])

theorem semicolon_not_mem_forChannel (h : read cs = .ok m) (hs : ';' ∉ cs) :
    ';' ∉ (forChannel c m.platform).toList := by
  have digits (n : UInt64) : ';' ∉ (Text.writeNumber n).toList :=
    Text.not_mem_writeNumber (by decide)
  cases hp : m.platform with
  | none => simp [toList_forChannel, platformText, digits]
  | some p =>
    have ⟨_, before, heq⟩ := read_platform h hp
    simp only [heq, List.mem_append, not_or] at hs
    simp [toList_forChannel, platformText, digits, hs]

end Moniker

namespace MonikerPiece

variable {lead item trail : List Char} {m : Moniker}

theorem toList_text_read (cs : List Char) : (read cs).text.toList = cs := by
  have back := Text.trimEnd_append_trailing (Text.trimStart cs)
  simp only [read, text, String.toList_append, String.toList_ofList, List.append_assoc, back]
  exact List.takeWhile_append_dropWhile

theorem toList_item_read (cs : List Char) : (read cs).item.toList = Text.trim cs := by
  simp [read, Text.trim]

theorem isBlank_of_mem_lead {d : Char} (h : d ∈ (read cs).lead.toList) : Text.isBlank d := by
  simp only [read, String.toList_ofList] at h
  exact List.all_eq_true.mp List.all_takeWhile d h

theorem isBlank_of_mem_trail {d : Char} (h : d ∈ (read cs).trail.toList) : Text.isBlank d := by
  simp only [read, String.toList_ofList] at h
  exact Text.isBlank_of_mem_trailing h

-- The blanks around a trimmed text are told apart from it again.
theorem read_append (hl : ∀ d ∈ lead, Text.isBlank d) (hi : Text.IsTrimmed item) (ne : item ≠ [])
    (ht : ∀ d ∈ trail, Text.isBlank d) :
    read (lead ++ (item ++ trail)) = ⟨String.ofList lead, String.ofList item, String.ofList trail,
      (Moniker.parse (String.ofList item)).toOption⟩ := by
  have head : (item ++ trail).head? = item.head? := by
    cases item
    case nil => contradiction
    case cons => rfl
  have start : Text.trimStart (item ++ trail) = item ++ trail :=
    Text.trimStart_eq_self fun d hd => hi.head d (head ▸ hd)
  simp [read, Text.trimStart_append hl, start, Text.trimEnd_append_blanks ht,
    Text.trimEnd_eq_self hi.last, Text.trailing_append hi.last ht,
    Text.takeWhile_isBlank_append hl fun d hd => hi.head d (head ▸ hd)]

theorem moniker?_read : (read cs).moniker? = some m ↔ Moniker.read (Text.trim cs) = .ok m := by
  simp only [read, Moniker.parse, String.toList_ofList]
  change Except.toOption ((Moniker.read (Text.trim cs)).mapError _) = some m ↔ _
  cases Moniker.read (Text.trim cs) <;> simp [Except.toOption]

-- The text of a piece moved to a channel: what `MonikerList.replaceOnly` writes.
def moved (c : Channel) (p : MonikerPiece) : List Char :=
  match p.moniker? with
  | some m => p.lead.toList ++ ((Moniker.forChannel c m.platform).toList ++ p.trail.toList)
  | none => p.text.toList

theorem isTrimmed_item (h : Moniker.read (Text.trim cs) = .ok m) :
    Text.IsTrimmed (Moniker.forChannel c m.platform).toList :=
  Moniker.isTrimmed_forChannel h (Text.isTrimmed_trim cs)

theorem read_moved_of_some (h : (read cs).moniker? = some m) :
    read (moved c (read cs)) = ⟨(read cs).lead, Moniker.forChannel c m.platform, (read cs).trail,
      (Moniker.parse (Moniker.forChannel c m.platform)).toOption⟩ := by
  rw [moved, h]
  dsimp only
  rw [read_append (fun _ => isBlank_of_mem_lead) (isTrimmed_item (moniker?_read.mp h))
    Moniker.forChannel_ne_nil (fun _ => isBlank_of_mem_trail)]
  simp

theorem moved_of_none (h : (read cs).moniker? = none) : moved c (read cs) = cs := by
  simp [moved, h, toList_text_read]

theorem mem_of_mem_lead {d : Char} (h : d ∈ (read cs).lead.toList) : d ∈ cs := by
  simp only [read, String.toList_ofList] at h
  exact (List.takeWhile_prefix _).mem h

theorem mem_of_mem_trail {d : Char} (h : d ∈ (read cs).trail.toList) : d ∈ cs := by
  simp only [read, String.toList_ofList] at h
  exact (List.dropWhile_suffix _).mem (List.mem_of_mem_drop h)

theorem mem_moved {d : Char} (h : d ∈ moved c (read cs)) : d ∈ cs ∨ Moniker.IsWritten d := by
  cases hm : (read cs).moniker? with
  | none => exact .inl (by rwa [moved_of_none hm] at h)
  | some m =>
    simp only [moved, hm, List.mem_append] at h
    obtain h | h | h := h
    · exact .inl (mem_of_mem_lead h)
    · cases Moniker.mem_forChannel (moniker?_read.mp hm) h
      case inl h => exact .inl (Text.mem_of_mem_trim h)
      case inr h => exact .inr h
    · exact .inl (mem_of_mem_trail h)

theorem semicolon_not_mem_moved (h : ';' ∉ cs) : ';' ∉ moved c (read cs) := by
  cases hm : (read cs).moniker? with
  | none => rwa [moved_of_none hm]
  | some m =>
    have item : ';' ∉ Text.trim cs := fun hd => h (Text.mem_of_mem_trim hd)
    simp only [moved, hm, List.mem_append, not_or]
    refine ⟨?lead, Moniker.semicolon_not_mem_forChannel (moniker?_read.mp hm) item, ?trail⟩
    case lead => exact fun hd => absurd (isBlank_of_mem_lead hd) (by decide)
    case trail => exact fun hd => absurd (isBlank_of_mem_trail hd) (by decide)

end MonikerPiece

namespace MonikerList

variable {text : String} {l : MonikerList}

theorem pieces_of_parse (h : parse text = .ok l) :
    l.pieces = (Text.splitAt ';' text.toList).map MonikerPiece.read := by
  unfold parse at h
  dsimp only at h
  split at h <;> cases h
  rfl

theorem parse_text (h : parse text = .ok l) : l.text = text := by
  apply String.toList_inj.mp
  rw [MonikerList.text, String.toList_intercalate, pieces_of_parse h]
  simp [Function.comp_def, MonikerPiece.toList_text_read, Text.intercalate_splitAt]

theorem toList_replaceOnly (l : MonikerList) (c : Channel) :
    (l.replaceOnly c).toList = [';'].intercalate (l.pieces.map (MonikerPiece.moved c)) := by
  rw [replaceOnly, String.toList_intercalate, List.map_map]
  congr 1
  apply List.map_congr_left
  intro p _
  cases hm : p.moniker? <;> simp [MonikerPiece.moved, hm]

theorem splitAt_replaceOnly (h : parse text = .ok l) :
    Text.splitAt ';' (l.replaceOnly c).toList = l.pieces.map (MonikerPiece.moved c) := by
  rw [toList_replaceOnly]
  apply Text.splitAt_intercalate
  case ne => simp [pieces_of_parse h, Text.splitOn_ne_nil]
  case h =>
    intro piece hp
    simp only [pieces_of_parse h, List.map_map, List.mem_map, Function.comp_apply] at hp
    obtain ⟨cs, hcs, rfl⟩ := hp
    exact MonikerPiece.semicolon_not_mem_moved (Text.not_mem_of_mem_splitAt hcs)

theorem exists_of_mem_monikers {m : Moniker} (h : parse text = .ok l) (hm : m ∈ l.monikers) :
    ∃ cs ∈ Text.splitAt ';' text.toList, (MonikerPiece.read cs).moniker? = some m := by
  simp only [monikers, pieces_of_parse h, List.mem_filterMap, List.mem_map] at hm
  obtain ⟨p, ⟨cs, hcs, rfl⟩, hm⟩ := hm
  exact ⟨cs, hcs, hm⟩

-- A list below a channel has a highest moniker, which does not reach the channel.
theorem exists_below (h : parse text = .ok l) (hl : l.isAtLeast c = false) :
    ∃ cs m, cs ∈ Text.splitAt ';' text.toList ∧ (MonikerPiece.read cs).moniker? = some m ∧
      l.highest? = some m ∧ c.isReachedBy m.version.major (m.version.minor.getD 0) = false := by
  unfold isAtLeast at hl
  split at hl
  case h_2 => cases hl
  case h_1 m hm =>
    have mem := List.mem_of_mem_filter (firstHighest?_mem hm)
    have ⟨cs, hcs, read⟩ := exists_of_mem_monikers h mem
    exact ⟨cs, m, hcs, read, hm, hl⟩

theorem isAtLeast_of_mem {m : Moniker} (hm : m ∈ l.monikers) (hu : m.isUpgradable)
    (hc : c.isReachedBy m.version.major (m.version.minor.getD 0)) : l.isAtLeast c := by
  have hm : m ∈ l.monikers.filter (·.isUpgradable) := List.mem_filter.mpr ⟨hm, hu⟩
  have ⟨top, ht, hr⟩ := exists_firstHighest? Moniker.version hm hc
  simpa [isAtLeast, highest?, ht, Channel.isReachedBy] using hr

-- Text in which some piece reads as the moniker of a channel is a list that reaches the channel.
theorem parse_of_mem {platform : Option String} (hp : platform ≠ some "") (hc : 5 ≤ c.major)
    {cs : List Char} (hcs : cs ∈ Text.splitAt ';' text.toList)
    (hm : (MonikerPiece.read cs).moniker?
      = (Moniker.parse (Moniker.forChannel c platform)).toOption) :
    ∃ l, parse text = .ok l ∧ l.isAtLeast c := by
  have read := Moniker.read_forChannel (c := c) hp
  rw [if_neg (UInt64.not_lt.mpr hc)] at read
  have hm : (MonikerPiece.read cs).moniker?
      = some ⟨.net, .release c.major (some c.minor) none, platform⟩ := by
    rw [hm, Moniker.parse, read]
    rfl
  refine ⟨⟨(Text.splitAt ';' text.toList).map MonikerPiece.read⟩, ?parsed, ?reached⟩
  case parsed =>
    apply if_pos
    simp only [List.any_map, List.any_eq_true]
    exact ⟨cs, hcs, by simp [hm]⟩
  case reached =>
    apply isAtLeast_of_mem (List.mem_filterMap.mpr ⟨_, List.mem_map_of_mem hcs, hm⟩)
    case hu => rfl
    case hc => exact c.isReachedBy_self

-- The channel's moniker in place of one below the channel is another text.
theorem replaceOnly_ne (h : parse text = .ok l) (hl : l.isAtLeast c = false) :
    l.replaceOnly c ≠ text := by
  intro heq
  have ⟨cs, m, hcs, hm, _, below⟩ := exists_below h hl
  have pieces := splitAt_replaceOnly (c := c) h
  rw [heq, pieces_of_parse h, List.map_map] at pieces
  have same : MonikerPiece.moved c (MonikerPiece.read cs) = cs := by
    have fixed := List.map_inj_left.mp (pieces.symm.trans (List.map_id _).symm) cs hcs
    simpa using fixed
  have moved := MonikerPiece.read_moved_of_some (c := c) hm
  rw [same] at moved
  have hr := Moniker.read_forChannel (c := c)
    (Moniker.platform_ne (MonikerPiece.moniker?_read.mp hm))
  have hm : (Moniker.parse (Moniker.forChannel c m.platform)).toOption = some m := by
    rw [← hm, moved]
  rw [Moniker.parse, hr] at hm
  split at hm
  case isTrue => simp [Except.toOption] at hm
  case isFalse =>
    simp only [mapError_ok, Except.toOption, Option.some.injEq] at hm
    have reached := c.isReachedBy_self
    rw [← hm] at below
    simp [NumericVersion.release, reached] at below

theorem append_ne (h : parse text = .ok l) : l.append c ≠ text := by
  intro heq
  have length := congrArg (fun s => s.toList.length) heq
  have parts := congrArg List.length (Text.trimEnd_append_trailing text.toList)
  simp only [append, parse_text h, String.toList_append, String.toList_ofList, List.length_append,
    Moniker.toList_forChannel, List.length_cons] at length parts
  omega

-- What a list gains stands behind a semicolon, which may have been there.
theorem exists_toList_append {m : Moniker} (h : parse text = .ok l) (hm : l.highest? = some m) :
    ∃ front, (Text.trimEnd text.toList = front ++ [';'] ∨ Text.trimEnd text.toList = front) ∧
      (l.append c).toList = front ++ ';' ::
        ((Moniker.forChannel c m.platform).toList ++ Text.trailing text.toList) := by
  unfold append
  rw [parse_text h, hm]
  dsimp only [Option.bind_some]
  split
  case isTrue he =>
    have ⟨front, hf⟩ := List.getLast?_eq_some_iff.mp he
    exact ⟨front, .inl hf, by simp [hf]⟩
  case isFalse => exact ⟨_, .inr rfl, by simp⟩

-- The piece that a list gains is the last one, with the blanks that ended the list behind it.
theorem mem_splitAt_append {m : Moniker} (h : parse text = .ok l) (hm : l.highest? = some m)
    (hs : ';' ∉ (Moniker.forChannel c m.platform).toList) :
    (Moniker.forChannel c m.platform).toList ++ Text.trailing text.toList
      ∈ Text.splitAt ';' (l.append c).toList := by
  have trail : ';' ∉ Text.trailing text.toList :=
    fun hd => absurd (Text.isBlank_of_mem_trailing hd) (by decide)
  obtain ⟨front, _, written⟩ := exists_toList_append (c := c) h hm
  rw [written]
  exact Text.mem_splitAt_append front (by simp [hs, trail])

-- The text for a channel is again a list, which reaches the channel.
theorem parse_upgraded (h : parse text = .ok l) (hl : l.isAtLeast c = false) (hc : 5 ≤ c.major) :
    ∃ l', parse (l.upgraded c) = .ok l' ∧ l'.isAtLeast c := by
  have ⟨cs, m, hcs, hm, highest, _⟩ := exists_below h hl
  have read := MonikerPiece.moniker?_read.mp hm
  unfold upgraded
  rw [hl]
  split
  case isTrue h => cases h
  case isFalse =>
    split
    case isTrue =>
      have piece : MonikerPiece.moved c (MonikerPiece.read cs)
          ∈ Text.splitAt ';' (l.replaceOnly c).toList := by
        rw [splitAt_replaceOnly h, pieces_of_parse h]
        exact List.mem_map_of_mem (List.mem_map_of_mem hcs)
      apply parse_of_mem (Moniker.platform_ne read) hc piece
      rw [MonikerPiece.read_moved_of_some hm]
    case isFalse =>
      have outside : ';' ∉ (Moniker.forChannel c m.platform).toList :=
        Moniker.semicolon_not_mem_forChannel read fun hd =>
          Text.not_mem_of_mem_splitAt hcs (Text.mem_of_mem_trim hd)
      apply parse_of_mem (Moniker.platform_ne read) hc (mem_splitAt_append h highest outside)
      have trail : ∀ d ∈ Text.trailing text.toList, Text.isBlank d :=
        fun _ => Text.isBlank_of_mem_trailing
      have none : ∀ d ∈ ([] : List Char), Text.isBlank d := by simp
      have last := MonikerPiece.read_append none (MonikerPiece.isTrimmed_item (c := c) read)
        Moniker.forChannel_ne_nil trail
      simp only [List.nil_append] at last
      rw [last, String.ofList_toList]

-- The text for a channel is made of what was there and what the channel brings.
theorem mem_upgraded {d : Char} (h : parse text = .ok l) (hd : d ∈ (l.upgraded c).toList) :
    d ∈ text.toList ∨ Moniker.IsWritten d := by
  unfold upgraded at hd
  split at hd
  case isTrue => exact .inl (by rwa [parse_text h] at hd)
  case isFalse below =>
    split at hd
    case isTrue =>
      rw [toList_replaceOnly, pieces_of_parse h] at hd
      obtain rfl | ⟨piece, hp, hd⟩ := Text.mem_intercalate hd
      case inl => exact .inr (by simp [Moniker.IsWritten])
      case inr =>
        obtain ⟨p, hm, rfl⟩ := List.mem_map.mp hp
        obtain ⟨cs, hcs, rfl⟩ := List.mem_map.mp hm
        cases MonikerPiece.mem_moved hd
        case inl hd => exact .inl (Text.mem_of_mem_splitOn hcs _ hd)
        case inr hd => exact .inr hd
    case isFalse =>
      have below : l.isAtLeast c = false := by simpa using below
      have ⟨cs, m, hcs, hm, highest, _⟩ := exists_below h below
      have piece := Text.mem_of_mem_splitOn hcs
      unfold append at hd
      simp only [parse_text h, highest, Option.bind_some, String.toList_append, String.toList_ofList,
        List.mem_append] at hd
      obtain ((hd | hd) | hd) | hd := hd
      · exact .inl ((Text.trimEnd_isPrefix _).mem hd)
      · split at hd
        case isTrue => simp at hd
        case isFalse => exact .inr (by simp_all [Moniker.IsWritten])
      · cases Moniker.mem_forChannel (MonikerPiece.moniker?_read.mp hm) hd
        case inl hd => exact .inl (piece _ (Text.mem_of_mem_trim hd))
        case inr hd => exact .inr hd
      · exact .inl (List.mem_of_mem_drop hd)

theorem upgraded_ne (h : parse text = .ok l) (hl : l.isAtLeast c = false) :
    l.upgraded c ≠ text := by
  unfold upgraded
  rw [hl]
  split
  case isTrue h => cases h
  case isFalse =>
    split
    case isTrue => exact replaceOnly_ne h hl
    case isFalse => exact append_ne h

-- A name without platform is replaced by the name of the channel.
theorem upgraded_of_name (h : parse text = .ok l) (hl : l.isAtLeast c = false)
    (blank : ∀ d ∈ text.toList, Text.isBlank d = false) (semicolon : ';' ∉ text.toList)
    (hyphen : '-' ∉ text.toList) : l.upgraded c = Moniker.forChannel c none := by
  have ⟨cs, m, hcs, hm, _, _⟩ := exists_below h hl
  have pieces := pieces_of_parse h
  rw [Text.splitAt_eq_singleton semicolon] at hcs pieces
  obtain rfl := List.mem_singleton.mp hcs
  have trimmed : Text.trim text.toList = text.toList :=
    Text.trim_eq_self (Text.isTrimmed_of_forall blank)
  have read := MonikerPiece.moniker?_read.mp hm
  rw [trimmed] at read
  have platform : m.platform = none := by
    cases hp : m.platform with
    | none => rfl
    | some p =>
      have ⟨_, before, heq⟩ := Moniker.read_platform read hp
      exact absurd (by simp [heq]) hyphen
  have item : (MonikerPiece.read text.toList).item = text := by
    apply String.toList_inj.mp
    rw [MonikerPiece.toList_item_read, trimmed]
  have ne : text ≠ "" := by
    rintro rfl
    cases read
  have one : l.items.length = 1 := by simp [items, pieces, item, ne]
  have none {part : List Char} (inside : ∀ d ∈ part, d ∈ text.toList)
      (blanks : ∀ d ∈ part, Text.isBlank d) : part = [] := by
    apply List.eq_nil_iff_forall_not_mem.mpr
    intro d hd
    have := blanks d hd
    simp [blank d (inside d hd)] at this
  have lead := none (fun _ => MonikerPiece.mem_of_mem_lead) (fun _ => MonikerPiece.isBlank_of_mem_lead)
  have trail := none (fun _ => MonikerPiece.mem_of_mem_trail) (fun _ => MonikerPiece.isBlank_of_mem_trail)
  unfold upgraded
  rw [hl, if_neg (by simp), if_pos one]
  apply String.toList_inj.mp
  rw [toList_replaceOnly, pieces]
  simp [MonikerPiece.moved, hm, platform, lead, trail]

end MonikerList
end Repin
