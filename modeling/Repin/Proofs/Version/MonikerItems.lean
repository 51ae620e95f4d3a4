import Repin.Proofs.Version.Moniker
/-!
# The items of a list of monikers

An item is what stands between two semicolons, without the blanks around it. A list below a channel
keeps its items and the blanks between them: a sole item is replaced in its place, and any others gain
one behind them. What is written for the channel has the platform of the first of the highest monikers
of the list. From version five on it is a moniker again, so that the new list has reached the channel;
below five it is none, and the new list is still below.

Main statements: `MonikerList.items_upgraded`, `MonikerList.arrives_iff`.
-/
namespace Repin

variable {c : Channel} {m : Moniker}

namespace Moniker

variable {cs : List Char}

-- The moniker that an item is, if it is one that moves.
def moving? (cs : List Char) : Option Moniker :=
  (read cs).toOption.filter (·.isUpgradable)

theorem moving?_eq_some_iff : moving? cs = some m ↔ read cs = .ok m ∧ m.isUpgradable := by
  cases h : read cs <;> simp only [moving?, h, Except.toOption, Option.filter] <;> grind

theorem moving?_nil : moving? [] = none := by
  rfl

-- What an item becomes for a channel: it keeps its platform, in the case it was written in.
def movedItem (c : Channel) (item : List Char) : List Char :=
  ("net" ++ c.render).toList ++ item.dropWhile (· ≠ '-')

theorem hyphen_not_mem_of_readDotted {v : NumericVersion} (h : readDotted cs = some v) :
    '-' ∉ cs := by
  intro hm
  have ⟨piece, hp, hd⟩ : ∃ piece ∈ Text.splitAt '.' cs, '-' ∈ piece :=
    Text.exists_mem_splitAt hm (by decide)
  obtain ⟨numbers, hn, _⟩ := Option.bind_eq_some_iff.mp h
  obtain ⟨n, number⟩ := exists_of_mem_mapM hn hp
  exact absurd ((Text.readNumber_eq_some number).right _ hd) (by decide)

theorem platformText_readNet (h : readNet cs = .ok m) (hu : m.isUpgradable) :
    platformText m.platform = cs.dropWhile (· ≠ '-') := by
  unfold readNet at h
  split at h
  case h_1 =>
    cases h
    cases hu
  case h_2 =>
    simp only [bind, Except.bind, pure, Except.pure, throw, throwThe, MonadExceptOf.throw] at h
    split at h
    case h_1 hs =>
      have hm : m.platform = none := by
        repeat' split at h
        all_goals cases h
        rfl
      rw [hm, Text.dropWhile_eq_nil_of_not_mem (Text.splitOnce_eq_none_iff.mp hs)]
      rfl
    case h_2 => cases h
    case h_3 before after ne hs =>
      have hm : m.platform = some (String.ofList after) := by
        repeat' split at h
        all_goals cases h
        rfl
      rw [hm, Text.dropWhile_of_splitOnce hs, platformText, String.toList_ofList]

theorem platformText_read (h : read cs = .ok m) (hu : m.isUpgradable) :
    platformText m.platform = cs.dropWhile (· ≠ '-') := by
  have hyphen (h : '-' ∈ cs) : '-' ∈ Text.lowercase cs := List.mem_map_of_mem h
  unfold read at h
  dsimp only at h
  split at h
  case h_1 => cases h; cases hu
  case h_2 => split at h <;> cases h; cases hu
  case h_3 =>
    split at h
    case h_1 rest core =>
      split at h
      case h_2 => cases h
      case h_1 version dotted =>
        cases h
        have lower := Text.stripStart?_eq_some_iff.mp core
        have outside : '-' ∉ cs := fun hm => by
          have hm := hyphen hm
          rw [lower, List.mem_append] at hm
          obtain hm | hm := hm
          · exact absurd hm (by decide)
          · exact hyphen_not_mem_of_readDotted dotted hm
        rw [Text.dropWhile_eq_nil_of_not_mem outside]
        rfl
    case h_2 =>
      split at h
      case h_2 => cases h
      case h_1 rest net =>
        have lower := Text.stripStart?_eq_some_iff.mp net
        have family : '-' ∉ cs.take 3 := fun hm => by
          have hm : '-' ∈ (Text.lowercase cs).take 3 := by
            rw [Text.lowercase, ← List.map_take]
            exact List.mem_map_of_mem hm
          rw [lower] at hm
          exact absurd hm (by simp)
        rw [platformText_readNet h hu]
        conv_rhs => rw [← List.take_append_drop 3 cs]
        rw [Text.dropWhile_append_of_not_mem family]

theorem toList_forChannel_of_read (h : read cs = .ok m) (hu : m.isUpgradable) :
    (forChannel c m.platform).toList = movedItem c cs := by
  simp [toList_forChannel, movedItem, platformText_read h hu, Channel.toList_render]

end Moniker

namespace MonikerList

variable {text : String} {l : MonikerList} {cs item lead trail : List Char}

-- The items of a text: its pieces without their blanks, unless nothing is left.
def itemsOf (cs : List Char) : List (List Char) :=
  ((Text.splitAt ';' cs).map Text.trim).filter (· ≠ [])

theorem itemsOf_append_semicolon (before after : List Char) :
    itemsOf (before ++ ';' :: after) = itemsOf before ++ itemsOf after := by
  simp only [itemsOf, Text.splitAt_append, List.map_append, List.filter_append]

theorem itemsOf_append_blanks (h : ∀ d ∈ trail, Text.isBlank d) :
    itemsOf (cs ++ trail) = itemsOf cs := by
  have outside : ';' ∉ trail := fun hd => absurd (h _ hd) (by decide)
  have ⟨pieces, last, heq, happ⟩ := Text.splitAt_append_right cs outside
  simp only [itemsOf, heq, happ, List.map_append, List.map_singleton, Text.trim_append_blanks h]

theorem itemsOf_nil : itemsOf [] = [] := rfl

theorem itemsOf_item (hi : Text.IsTrimmed item) (ne : item ≠ []) (hs : ';' ∉ item) :
    itemsOf item = [item] := by
  simp [itemsOf, Text.splitAt_eq_singleton hs, Text.trim_eq_self hi, ne]

theorem length_items (h : parse text = .ok l) : l.items.length = (itemsOf text.toList).length := by
  have empty (piece : List Char) : (MonikerPiece.read piece).item = "" ↔ Text.trim piece = [] := by
    rw [← String.toList_eq_nil_iff, MonikerPiece.toList_item_read]
  simp [items, itemsOf, pieces_of_parse h, List.filter_map, Function.comp_def, empty]

-- The monikers that move are found among the items.
theorem filterMap_moving? (h : parse text = .ok l) :
    (itemsOf text.toList).filterMap Moniker.moving? = l.monikers.filter (·.isUpgradable) := by
  rw [monikers, pieces_of_parse h, List.filter_filterMap, List.filterMap_map, itemsOf,
    List.filterMap_filter, List.filterMap_map]
  apply List.filterMap_congr
  intro piece _
  have read : (MonikerPiece.read piece).moniker? = (Moniker.read (Text.trim piece)).toOption := by
    apply Option.ext
    intro m
    rw [MonikerPiece.moniker?_read]
    cases Moniker.read (Text.trim piece) <;> simp [Except.toOption]
  have moving : (MonikerPiece.read piece).moniker?.filter (·.isUpgradable)
      = Moniker.moving? (Text.trim piece) := by rw [read, Moniker.moving?]
  by_cases empty : Text.trim piece = [] <;> simp [moving, empty, Moniker.moving?_nil]

-- An item reads as the given moniker, which moves; of the items that do, the ones before it are
-- lower, and the ones behind it are no higher.
structure Leads (items : List (List Char)) (item : List Char) (m : Moniker) : Prop where
  read : Moniker.read item = .ok m
  upgradable : m.isUpgradable
  first : ∃ before after, items = before ++ item :: after ∧
    (∀ other ∈ before, ∀ n, Moniker.read other = .ok n → n.isUpgradable →
      compare n.version m.version = .lt) ∧
    ∀ other ∈ after, ∀ n, Moniker.read other = .ok n → n.isUpgradable →
      compare n.version m.version ≠ .gt

theorem Leads.mem {items : List (List Char)} (h : Leads items item m) : item ∈ items := by
  obtain ⟨before, after, heq, _⟩ := h.first
  simp [heq]

theorem exists_leads (h : parse text = .ok l) (hm : l.highest? = some m) :
    ∃ item, Leads (itemsOf text.toList) item m := by
  rw [highest?, ← filterMap_moving? h] at hm
  obtain ⟨lower, rest, heq, first⟩ := isFirstHighest_of_firstHighest? hm
  obtain ⟨front, back, hitems, hfront, hback⟩ := List.filterMap_eq_append_iff.mp heq
  obtain ⟨still, item, after, rfl, hstill, hitem, hafter⟩ := List.filterMap_eq_cons_iff.mp hback
  obtain ⟨read, upgradable⟩ := Moniker.moving?_eq_some_iff.mp hitem
  have moving {other : List Char} {n : Moniker} (hr : Moniker.read other = .ok n)
      (hu : n.isUpgradable) := Moniker.moving?_eq_some_iff.mpr ⟨hr, hu⟩
  refine ⟨item, read, upgradable, front ++ still, after, by simp [hitems], ?_, ?_⟩
  · intro other ho n hr hu
    obtain ho | ho := List.mem_append.mp ho
    · exact first.lower n (hfront ▸ List.mem_filterMap.mpr ⟨other, ho, moving hr hu⟩)
    · simpa [moving hr hu] using hstill other ho
  · intro other ho n hr hu
    exact first.rest n (hafter ▸ List.mem_filterMap.mpr ⟨other, ho, moving hr hu⟩)

-- A list with a sole item has it in one piece, and blanks in the others.
theorem exists_sole_piece (h : itemsOf cs = [item]) : ∃ before piece after,
    Text.splitAt ';' cs = before ++ piece :: after ∧ Text.trim piece = item ∧
      ∀ other ∈ before ++ after, Text.trim other = [] := by
  rw [itemsOf, List.filter_map, List.map_eq_singleton_iff] at h
  obtain ⟨piece, hp, rfl⟩ := h
  obtain ⟨before, after, heq, hbefore, _, hafter⟩ := List.filter_eq_cons_iff.mp hp
  refine ⟨before, piece, after, heq, rfl, fun other ho => ?_⟩
  obtain ho | ho := List.mem_append.mp ho
  · simpa using hbefore other ho
  · simpa using List.filter_eq_nil_iff.mp hafter other ho

-- A sole item is replaced, and nothing around it.
theorem replaceOnly_sole (h : parse text = .ok l) (hi : itemsOf text.toList = [item])
    (hr : Moniker.read item = .ok m) : ∃ lead trail,
    (∀ d ∈ lead ++ trail, d = ';' ∨ Text.isBlank d) ∧ text.toList = lead ++ (item ++ trail) ∧
      (l.replaceOnly c).toList = lead ++ ((Moniker.forChannel c m.platform).toList ++ trail) ∧
      itemsOf (l.replaceOnly c).toList = [(Moniker.forChannel c m.platform).toList] := by
  obtain ⟨before, piece, after, hp, htrim, hblank⟩ := exists_sole_piece hi
  subst htrim
  have moniker := MonikerPiece.moniker?_read.mpr hr
  have still : ∀ other ∈ before ++ after,
      MonikerPiece.moved c (MonikerPiece.read other) = other := by
    intro other ho
    apply MonikerPiece.moved_of_none
    apply Option.eq_none_iff_forall_ne_some.mpr
    intro n hn
    rw [MonikerPiece.moniker?_read, hblank other ho] at hn
    cases hn
  have same {part : List (List Char)}
      (hs : ∀ other ∈ part, MonikerPiece.moved c (MonikerPiece.read other) = other) :
      part.map (MonikerPiece.moved c ∘ MonikerPiece.read) = part :=
    (List.map_congr_left hs).trans (List.map_id part)
  have pieces : l.pieces.map (MonikerPiece.moved c)
      = before ++ MonikerPiece.moved c (MonikerPiece.read piece) :: after := by
    have ⟨hbefore, hafter⟩ := List.forall_mem_append.mp still
    rw [pieces_of_parse h, hp, List.map_map, List.map_append, List.map_cons, same hbefore,
      same hafter, Function.comp_apply]
  refine ⟨before.flatMap (· ++ [';']) ++ (MonikerPiece.read piece).lead.toList,
    (MonikerPiece.read piece).trail.toList ++ after.flatMap (';' :: ·), ?around, ?text, ?written, ?one⟩
  case around =>
    have blank : ∀ other ∈ before ++ after, ∀ d ∈ other, Text.isBlank d :=
      fun other ho => Text.trim_eq_nil_iff.mp (hblank other ho)
    intro d hd
    simp only [List.mem_append, List.mem_flatMap, List.mem_cons, List.not_mem_nil, or_false] at hd
    obtain (⟨other, ho, hd | rfl⟩ | hd) | hd | ⟨other, ho, rfl | hd⟩ := hd
    · exact .inr (blank other (List.mem_append_left _ ho) d hd)
    · exact .inl rfl
    · exact .inr (MonikerPiece.isBlank_of_mem_lead hd)
    · exact .inr (MonikerPiece.isBlank_of_mem_trail hd)
    · exact .inl rfl
    · exact .inr (blank other (List.mem_append_right _ ho) d hd)
  case text =>
    have whole := MonikerPiece.toList_text_read piece
    rw [MonikerPiece.text, String.toList_append, String.toList_append,
      MonikerPiece.toList_item_read] at whole
    rw [← Text.intercalate_splitAt ';' text.toList, hp, Text.intercalate_append_cons]
    conv_lhs => rw [← whole]
    simp only [List.append_assoc]
  case written =>
    rw [toList_replaceOnly, pieces, Text.intercalate_append_cons, MonikerPiece.moved, moniker]
    simp only [List.append_assoc]
  case one =>
    have none {part : List (List Char)} (hs : ∀ other ∈ part, Text.trim other = []) :
        (part.map Text.trim).filter (· ≠ []) = [] := by
      simpa [List.filter_eq_nil_iff] using hs
    have ⟨hbefore, hafter⟩ := List.forall_mem_append.mp hblank
    have item : Text.trim (MonikerPiece.moved c (MonikerPiece.read piece))
        = (Moniker.forChannel c m.platform).toList := by
      rw [MonikerPiece.moved, moniker]
      exact Text.trim_append (fun _ => MonikerPiece.isBlank_of_mem_lead)
        (MonikerPiece.isTrimmed_item hr) fun _ => MonikerPiece.isBlank_of_mem_trail
    rw [itemsOf, splitAt_replaceOnly h, pieces, List.map_append, List.map_cons, List.filter_append,
      List.filter_cons, none hbefore, none hafter, item,
      if_pos (decide_eq_true Moniker.forChannel_ne_nil), List.nil_append]

-- In front of what a list gains stand the items that it had.
theorem itemsOf_front {front : List Char}
    (h : Text.trimEnd cs = front ++ [';'] ∨ Text.trimEnd cs = front) : itemsOf front = itemsOf cs := by
  have body : itemsOf (Text.trimEnd cs) = itemsOf cs := by
    conv_rhs => rw [← Text.trimEnd_append_trailing cs]
    exact (itemsOf_append_blanks fun _ => Text.isBlank_of_mem_trailing).symm
  obtain h | h := h
  · rw [← body, h, itemsOf_append_semicolon, itemsOf_nil, List.append_nil]
  · rw [← body, h]

-- Several items gain one, and the blanks at the end stay there.
theorem append_items (h : parse text = .ok l) (hm : l.highest? = some m)
    (hr : Moniker.read item = .ok m) (hi : Text.IsTrimmed item) (hs : ';' ∉ item) :
    itemsOf (l.append c).toList
        = itemsOf text.toList ++ [(Moniker.forChannel c m.platform).toList] ∧
      Text.trailing (l.append c).toList = Text.trailing text.toList := by
  obtain ⟨front, body, written⟩ := exists_toList_append (c := c) h hm
  have trail : ∀ d ∈ Text.trailing text.toList, Text.isBlank d :=
    fun _ => Text.isBlank_of_mem_trailing
  have trimmed : Text.IsTrimmed (Moniker.forChannel c m.platform).toList :=
    Moniker.isTrimmed_forChannel hr hi
  constructor
  case left =>
    rw [written, itemsOf_append_semicolon, itemsOf_front body, itemsOf_append_blanks trail,
      itemsOf_item trimmed Moniker.forChannel_ne_nil (Moniker.semicolon_not_mem_forChannel hr hs)]
  case right =>
    rw [written, ← List.cons_append, ← List.append_assoc]
    apply Text.trailing_append _ trail
    intro d hd
    rw [List.getLast?_append_of_ne_nil _ (by simp), ← List.singleton_append,
      List.getLast?_append_of_ne_nil _ Moniker.forChannel_ne_nil] at hd
    exact trimmed.last d hd

theorem isTrimmed_of_mem_itemsOf (h : item ∈ itemsOf cs) : Text.IsTrimmed item := by
  obtain ⟨piece, _, rfl⟩ := List.mem_map.mp (List.mem_filter.mp h).left
  exact Text.isTrimmed_trim piece

theorem semicolon_not_mem_of_mem_itemsOf (h : item ∈ itemsOf cs) : ';' ∉ item := by
  obtain ⟨piece, hp, rfl⟩ := List.mem_map.mp (List.mem_filter.mp h).left
  exact fun hd => Text.not_mem_of_mem_splitAt hp (Text.mem_of_mem_trim hd)

-- Which of the two ways a list below a channel is moved.
theorem upgraded_cases (h : parse text = .ok l) (hl : l.isAtLeast c = false)
    (hi : item ∈ itemsOf text.toList) :
    itemsOf text.toList = [item] ∧ l.upgraded c = l.replaceOnly c ∨
      2 ≤ (itemsOf text.toList).length ∧ l.upgraded c = l.append c := by
  unfold upgraded
  rw [hl, if_neg (by simp), length_items h]
  by_cases one : (itemsOf text.toList).length = 1
  case pos =>
    have ⟨other, sole⟩ := List.length_eq_one_iff.mp one
    obtain rfl : item = other := by simpa [sole] using hi
    exact .inl ⟨sole, if_pos one⟩
  case neg =>
    have := List.length_pos_of_mem hi
    exact .inr ⟨by omega, if_neg one⟩

-- How an item of a text is moved: alone it is replaced, and nothing around it; one of several stays
-- with the others, and what it becomes is a further item behind them.
inductive Moved (c : Channel) (item : List Char) : List Char → List Char → Prop
  | replaced {lead trail : List Char} (around : ∀ d ∈ lead ++ trail, d = ';' ∨ Text.isBlank d)
    (sole : itemsOf (lead ++ (item ++ trail)) = [item])
    (new : itemsOf (lead ++ (Moniker.movedItem c item ++ trail)) = [Moniker.movedItem c item]) :
    Moved c item (lead ++ (item ++ trail)) (lead ++ (Moniker.movedItem c item ++ trail))
  | gained {before after : List Char} (several : 2 ≤ (itemsOf before).length)
    (items : itemsOf after = itemsOf before ++ [Moniker.movedItem c item])
    (trailing : Text.trailing after = Text.trailing before) : Moved c item before after

-- A list below a channel is moved by the first of its highest monikers.
theorem items_upgraded (h : parse text = .ok l) (hl : l.isAtLeast c = false) :
    ∃ item m, Leads (itemsOf text.toList) item m ∧
      Moved c item text.toList (l.upgraded c).toList := by
  have ⟨_, m, _, _, hm, _⟩ := exists_below h hl
  have ⟨item, leads⟩ := exists_leads h hm
  have new := Moniker.toList_forChannel_of_read (c := c) leads.read leads.upgradable
  refine ⟨item, m, leads, ?_⟩
  cases upgraded_cases h hl leads.mem
  case inl hu =>
    obtain ⟨sole, hu⟩ := hu
    obtain ⟨lead, trail, around, whole, written, items⟩ := replaceOnly_sole h sole leads.read
    rw [whole] at sole
    rw [written, new] at items
    rw [hu, whole, written, new]
    exact .replaced around sole items
  case inr hu =>
    obtain ⟨several, hu⟩ := hu
    have ⟨items, trailing⟩ := append_items (c := c) h hm leads.read
      (isTrimmed_of_mem_itemsOf leads.mem) (semicolon_not_mem_of_mem_itemsOf leads.mem)
    rw [hu]
    exact .gained several (new ▸ items) trailing

theorem items_upgraded_platforms : ∃ l, parse "net6.0 ;NET7.0-Windows;; $(Extra)\n" = .ok l ∧
    l.isAtLeast (.ofNumbers 8 0) = false ∧
    ∃ item m, Leads (itemsOf "net6.0 ;NET7.0-Windows;; $(Extra)\n".toList) item m ∧
      Moved (.ofNumbers 8 0) item "net6.0 ;NET7.0-Windows;; $(Extra)\n".toList
        (l.upgraded (.ofNumbers 8 0)).toList :=
  ⟨_, rfl, by decide +kernel, items_upgraded rfl (by decide +kernel)⟩

-- The item that a list gains for a channel.
def newItem (l : MonikerList) (c : Channel) : List Char :=
  (Moniker.forChannel c (l.highest?.bind (·.platform))).toList

-- What is left of a list, and what it gains, when it is moved to a channel.
theorem itemsOf_upgraded (h : parse text = .ok l) (hl : l.isAtLeast c = false) :
    itemsOf (l.upgraded c).toList = [l.newItem c] ∨
      itemsOf (l.upgraded c).toList = itemsOf text.toList ++ [l.newItem c] := by
  have ⟨_, m, _, _, hm, _⟩ := exists_below h hl
  have ⟨item, leads⟩ := exists_leads h hm
  rw [newItem, hm, Option.bind_some]
  cases upgraded_cases h hl leads.mem
  case inl hu =>
    obtain ⟨sole, hu⟩ := hu
    obtain ⟨_, _, _, _, _, items⟩ := replaceOnly_sole (c := c) h sole leads.read
    exact .inl (hu ▸ items)
  case inr hu =>
    obtain ⟨_, hu⟩ := hu
    have ⟨items, _⟩ := append_items (c := c) h hm leads.read
      (isTrimmed_of_mem_itemsOf leads.mem) (semicolon_not_mem_of_mem_itemsOf leads.mem)
    exact .inr (hu ▸ items)

theorem mem_or_eq_of_mem_upgraded (h : parse text = .ok l) (hl : l.isAtLeast c = false)
    (hi : item ∈ itemsOf (l.upgraded c).toList) : item ∈ itemsOf text.toList ∨ item = l.newItem c := by
  cases itemsOf_upgraded h hl <;> simp_all

theorem newItem_mem_upgraded (h : parse text = .ok l) (hl : l.isAtLeast c = false) :
    l.newItem c ∈ itemsOf (l.upgraded c).toList := by
  cases itemsOf_upgraded h hl <;> simp_all

-- No item of a list below a channel reaches the channel.
theorem isReachedBy_of_mem (h : parse text = .ok l) (hl : l.isAtLeast c = false)
    (hi : item ∈ itemsOf text.toList) (hm : Moniker.moving? item = some m) :
    c.isReachedBy m.version.major (m.version.minor.getD 0) = false := by
  have mem : m ∈ l.monikers.filter (·.isUpgradable) := by
    rw [← filterMap_moving? h]
    exact List.mem_filterMap.mpr ⟨item, hi, hm⟩
  obtain ⟨mem, upgradable⟩ := List.mem_filter.mp mem
  cases hc : c.isReachedBy m.version.major (m.version.minor.getD 0) with
  | false => rfl
  | true => simp [isAtLeast_of_mem mem upgradable hc] at hl

theorem moving?_newItem (h : parse text = .ok l) (hl : l.isAtLeast c = false) :
    ∃ platform, Moniker.moving? (l.newItem c) = if c.major < 5 then none
      else some ⟨.net, .release c.major (some c.minor) none, platform⟩ := by
  have ⟨_, m, _, read, hm, _⟩ := exists_below h hl
  have ne := Moniker.platform_ne (MonikerPiece.moniker?_read.mp read)
  refine ⟨m.platform, ?_⟩
  rw [newItem, hm, Option.bind_some, Moniker.moving?, Moniker.read_forChannel ne]
  split <;> rfl

-- The highest moniker of the text for a channel, if it is the channel's, is what was written.
theorem exists_mem_of_highest? (h : parse text = .ok l) (hm : l.highest? = some m) :
    ∃ item ∈ itemsOf text.toList, Moniker.moving? item = some m := by
  have mem := firstHighest?_mem hm
  rwa [← filterMap_moving? h, List.mem_filterMap] at mem

-- What a list is moved to a channel for: the text written for the channel is a list again, its
-- highest moniker is the channel's, a second move finds nothing to do, and only the item that was
-- gained is new.
structure Arrives (l : MonikerList) (c : Channel) (l' : MonikerList) : Prop where
  parsed : parse (l.upgraded c) = .ok l'
  highest : ∃ m, l'.highest? = some m ∧ m.version.major = c.major ∧ m.version.minor = some c.minor
  reached : l'.isAtLeast c
  settled : l'.upgraded c = l.upgraded c
  once : (itemsOf (l.upgraded c).toList).count (l.newItem c) = 1
  kept : ∀ item, item ≠ l.newItem c →
    (itemsOf (l.upgraded c).toList).count item ≤ (itemsOf l.text.toList).count item

theorem exists_arrives (h : parse text = .ok l) (hl : l.isAtLeast c = false) (hc : 5 ≤ c.major) :
    ∃ l', l.Arrives c l' := by
  obtain ⟨l', parsed, reached⟩ := parse_upgraded h hl hc
  obtain ⟨platform, new⟩ := moving?_newItem h hl
  rw [if_neg (UInt64.not_lt.mpr hc)] at new
  have fresh : l.newItem c ∉ itemsOf text.toList := by
    intro hi
    have below := isReachedBy_of_mem h hl hi new
    simp [NumericVersion.release, c.isReachedBy_self] at below
  refine ⟨l', parsed, ?highest, reached, ?settled, ?once, ?kept⟩
  case highest =>
    have mem := List.mem_filterMap.mpr ⟨_, newItem_mem_upgraded h hl, new⟩
    rw [filterMap_moving? parsed] at mem
    obtain ⟨top, ht, hr⟩ := exists_firstHighest? Moniker.version mem c.isReachedBy_self
    obtain ⟨item, hi, hm⟩ := exists_mem_of_highest? parsed ht
    obtain old | rfl := mem_or_eq_of_mem_upgraded h hl hi
    · have below := isReachedBy_of_mem h hl old hm
      simp [Channel.isReachedBy, hr] at below
    · obtain rfl := Option.some.inj (new.symm.trans hm)
      exact ⟨_, ht, rfl, rfl⟩
  case settled => rw [upgraded, if_pos reached, parse_text parsed]
  case once =>
    have none := List.count_eq_zero.mpr fresh
    cases itemsOf_upgraded h hl <;> simp [*]
  case kept =>
    intro item ne
    rw [parse_text h]
    cases itemsOf_upgraded h hl <;> simp [*, Ne.symm ne]

theorem Arrives.five_le (h : parse text = .ok l) (hl : l.isAtLeast c = false) {l' : MonikerList}
    (ha : l.Arrives c l') : 5 ≤ c.major := by
  apply UInt64.not_lt.mp
  intro hc
  have ⟨_, new⟩ := moving?_newItem h hl
  rw [if_pos hc] at new
  obtain ⟨m, hm, major, minor⟩ := ha.highest
  obtain ⟨item, hi, moving⟩ := exists_mem_of_highest? ha.parsed hm
  obtain old | rfl := mem_or_eq_of_mem_upgraded h hl hi
  · have below := isReachedBy_of_mem h hl old moving
    simp [major, minor, c.isReachedBy_self] at below
  · simp [new] at moving

-- The text for a channel keeps what a move is for exactly from version five on: below five the name
-- that is written for the channel is no moniker.
theorem arrives_iff (h : parse text = .ok l) (hl : l.isAtLeast c = false) :
    (∃ l', l.Arrives c l') ↔ 5 ≤ c.major :=
  ⟨fun ⟨_, ha⟩ => ha.five_le h hl, exists_arrives h hl⟩

theorem arrives_iff_platform : ∃ l, parse "net6.0;net7.0-windows" = .ok l ∧
    l.isAtLeast (.ofNumbers 8 0) = false ∧ ∃ l', l.Arrives (.ofNumbers 8 0) l' := by
  have h : parse "net6.0;net7.0-windows" = .ok _ := rfl
  refine ⟨_, h, by decide +kernel, ?_⟩
  exact (arrives_iff h (by decide +kernel)).mpr (by decide)

-- A list at version 2.2 does not arrive at the channel 3.1.
theorem not_arrives_below_five : ∃ c l, Channel.parse "3.1" = .ok c ∧
    parse "netcoreapp2.1;netcoreapp2.2" = .ok l ∧ l.isAtLeast c = false ∧
    l.upgraded c = "netcoreapp2.1;netcoreapp2.2;net3.1" ∧ ¬ ∃ l', l.Arrives c l' := by
  have h : parse "netcoreapp2.1;netcoreapp2.2" = .ok _ := rfl
  refine ⟨.ofNumbers 3 1, _, by decide +kernel, h, by decide +kernel, by decide +kernel, ?_⟩
  rintro ⟨l', ha⟩
  exact absurd (ha.five_le h (by decide +kernel)) (by decide +kernel)

end MonikerList
end Repin
