import Repin.Proofs.Decision
import Repin.Proofs.Text.Newline
import Repin.Proofs.Version.FloatingLines
import Repin.Proofs.Version.MonikerItems
import Repin.Proofs.Version.PinnedImage
import Repin.Proofs.Version.PortableList
/-!
# The line endings of moved values

A value that is moved to a channel keeps its convention for ending lines. Versions and images have no
lines. In a list one printed text gives way to another one, or a further text stands between the last
printed character and the blanks behind it. Only a list of floating expressions gains a line, and the
line in front of it is ended by the convention.

Main statement: `Token.upgraded_keeps_newline`.
-/
namespace Repin

variable {newline : Newline} {c : Channel} {text : String} {cs front : List Char}

namespace Moniker

variable {m : Moniker}

theorem newline_not_mem_forChannel_none : '\n' ∉ (forChannel c none).toList := by
  have number (n : UInt64) : '\n' ∉ (Text.writeNumber n).toList :=
    Text.not_mem_writeNumber (by decide)
  simp [toList_forChannel, platformText, number]

theorem toList_forChannel_eq (c : Channel) (platform : Option String) :
    (forChannel c platform).toList = (forChannel c none).toList ++ platformText platform := by
  simp [toList_forChannel, platformText]

-- The platform stands behind a hyphen, as it did.
theorem holdsIn_forChannel (h : read cs = .ok m) (hl : newline.HoldsIn cs) :
    newline.HoldsIn (forChannel c m.platform).toList := by
  have front : newline.HoldsBehind [] (forChannel c none).toList :=
    Newline.holdsBehind_of_not_mem newline_not_mem_forChannel_none
  rw [toList_forChannel_eq, Newline.holdsIn_iff, Newline.holdsBehind_append]
  refine ⟨front, ?_⟩
  cases hp : m.platform with
  | none => exact Newline.holdsBehind_of_not_mem (List.not_mem_nil)
  | some platform =>
    obtain ⟨_, before, rfl⟩ := read_platform h hp
    refine (Newline.holdsBehind_append.mp (Newline.holdsIn_iff.mp hl)).right.of_head ?_
    rintro d ⟨⟩
    decide

end Moniker

namespace MonikerList

variable {l : MonikerList} {m : Moniker} {item : List Char}

theorem isInfix_of_mem_itemsOf (h : item ∈ itemsOf cs) : item <:+: cs := by
  obtain ⟨piece, hp, rfl⟩ := List.mem_map.mp (List.mem_filter.mp h).left
  exact (Text.trim_isInfix piece).trans (Text.isInfix_of_mem_splitAt hp)

theorem ne_nil_of_mem_itemsOf (h : item ∈ itemsOf cs) : item ≠ [] := by
  simpa using (List.mem_filter.mp h).right

theorem holdsIn_upgraded (h : parse text = .ok l) (hl : newline.HoldsIn text.toList) :
    newline.HoldsIn (l.upgraded c).toList := by
  cases below : l.isAtLeast c with
  | true => rwa [upgraded, if_pos below, parse_text h]
  | false =>
    obtain ⟨_, m, _, _, highest, _⟩ := exists_below h below
    obtain ⟨item, leads⟩ := exists_leads h highest
    have trimmed := isTrimmed_of_mem_itemsOf leads.mem
    have ne := ne_nil_of_mem_itemsOf leads.mem
    have inside := isInfix_of_mem_itemsOf leads.mem
    have new : newline.HoldsIn (Moniker.forChannel c m.platform).toList :=
      Moniker.holdsIn_forChannel leads.read (hl.of_infix inside trimmed.head)
    have trimmed' : Text.IsTrimmed (Moniker.forChannel c m.platform).toList :=
      Moniker.isTrimmed_forChannel leads.read trimmed
    have behind (front : List Char) :
        newline.HoldsBehind front (Moniker.forChannel c m.platform).toList :=
      (Newline.holdsIn_iff.mp new).of_head trimmed'.head
    have ends' := trimmed'.endsPrinted Moniker.forChannel_ne_nil
    obtain ⟨sole, hu⟩ | ⟨_, hu⟩ := upgraded_cases h below leads.mem
    case inl =>
      obtain ⟨lead, trail, _, whole, written, _⟩ := replaceOnly_sole (c := c) h sole leads.read
      rw [whole] at hl
      rw [hu, written]
      exact hl.replace (behind lead) (trimmed.endsPrinted ne) ends'
    case inr =>
      obtain ⟨front, body, written⟩ := exists_toList_append (c := c) h highest
      obtain ⟨separator, mark, gained⟩ : ∃ separator, '\n' ∉ separator ∧
          (l.append c).toList = Text.trimEnd text.toList ++ (separator ++
            (Moniker.forChannel c m.platform).toList ++ Text.trailing text.toList) := by
        obtain body | body := body
        · exact ⟨[], List.not_mem_nil, by simp [written, body]⟩
        · exact ⟨[';'], by decide, by simp [written, body]⟩
      rw [hu, gained]
      refine hl.insert ?_ ((trimmed.endsPrinted ne).trimEnd inside) (ends'.append separator)
      exact Newline.holdsBehind_append.mpr ⟨Newline.holdsBehind_of_not_mem mark, behind _⟩

end MonikerList

namespace RuntimeIdentifierList

variable {l : RuntimeIdentifierList}

-- An item is what it was without its blanks, or it is a name without any.
theorem holdsIn_toPortable (h : parse text = .ok l) (hl : newline.HoldsIn text.toList) :
    newline.HoldsIn l.toPortable.toList := by
  unfold toPortable
  split
  case isTrue =>
    have ⟨same, _⟩ := parse_eq_ok_iff.mp h
    rwa [same]
  case isFalse =>
    rw [String.toList_intercalate]
    refine Newline.holdsIn_iff.mpr (Newline.holdsBehind_intercalate (by decide) ?_ [])
    simp only [List.mem_map, List.mem_eraseDups]
    rintro _ ⟨_, ⟨_, hi, rfl⟩, rfl⟩ front
    obtain ⟨piece, hp, _, rfl⟩ := (mem_items h).mp hi
    have trimmed := Text.isTrimmed_trim piece
    cases IdentifierItem.toList_toPortable (Text.trim piece) with
    | inl same =>
      have inside := (Text.trim_isInfix piece).trans (Text.isInfix_of_mem_splitAt hp)
      rw [same]
      exact (Newline.holdsIn_iff.mp (hl.of_infix inside trimmed.head)).of_head trimmed.head
    | inr chars => exact Newline.holdsBehind_of_not_mem fun hd => absurd (chars _ hd) (by decide)

end RuntimeIdentifierList

namespace FloatingList

variable {l : FloatingList}

-- What a sole expression gives way to, between the same texts.
theorem exists_toList_replaceOnly (h : parse text = .ok l) (sole : l.isMultiLine = false) :
    ∃ lead written trail e, text.toList = lead ++ (written ++ trail) ∧ Text.EndsPrinted written ∧
      (l.replaceOnly c).toList = lead ++ ((FloatingExpr.upgraded c e).toList ++ trail) := by
  obtain ⟨before, indent, written, rest, e, after, isSole⟩ :=
    exists_isSole (length_entries_of_not_isMultiLine h sole)
  have line : .entry indent written rest e ∈ l.lines := by simp [isSole.lines]
  have ⟨isEntry, _⟩ := FloatingLine.isEntry_of_read (read_text_of_mem h line)
  refine ⟨(before.map (·.text.toList)).flatMap (· ++ ['\n']) ++ indent.toList, written.toList,
    rest.toList ++ (after.map (·.text.toList)).flatMap ('\n' :: ·), e.expr, ?text,
    isEntry.trimmed.endsPrinted isEntry.ne_nil, ?written⟩
  case text =>
    rw [← Text.intercalate_splitAt '\n' text.toList, ← map_text_lines h, isSole.lines,
      List.map_append, List.map_cons, Text.intercalate_append_cons]
    simp [FloatingLine.text]
  case written =>
    rw [isSole.toList_replaceOnly, Text.intercalate_append_cons]
    simp

-- A list has some expression in front of the blanks at its end.
theorem endsPrinted_trimEnd (h : parse text = .ok l) :
    Text.EndsPrinted (Text.trimEnd text.toList) := by
  obtain ⟨e, he⟩ := List.exists_mem_of_ne_nil _ (entries_ne_nil h)
  obtain ⟨line, hl, hi⟩ := List.mem_filterMap.mp he
  cases line with
  | blank => cases hi
  | entry indent written rest e =>
    have ⟨isEntry, _⟩ := FloatingLine.isEntry_of_read (read_text_of_mem h hl)
    have piece : _ ∈ Text.splitAt '\n' text.toList := map_text_lines h ▸ List.mem_map_of_mem hl
    have inside := Text.isInfix_of_mem_splitAt piece
    rw [isEntry.whole, ← List.append_assoc] at inside
    exact (isEntry.trimmed.endsPrinted isEntry.ne_nil).trimEnd ((List.infix_append ..).trans inside)

theorem holdsIn_upgraded {new : String} (h : parse text = .ok l) (hl : newline.HoldsIn text.toList)
    (hu : l.upgraded c newline = .ok new) : newline.HoldsIn new.toList := by
  have expr {e : FloatingExpr} {front : List Char} :
      newline.HoldsBehind front (e.upgraded c).toList :=
    Newline.holdsBehind_of_not_mem FloatingExpr.newline_not_mem_upgraded
  have printed {e : FloatingExpr} : Text.EndsPrinted (e.upgraded c).toList :=
    (Text.isTrimmed_of_forall FloatingExpr.isBlank_of_mem_upgraded).endsPrinted
      FloatingExpr.upgraded_ne_nil
  cases below : l.isAtLeast c with
  | true =>
    cases (upgraded_of_isAtLeast below).symm.trans hu
    rwa [parse_text h]
  | false =>
    cases several : l.isMultiLine with
    | false =>
      cases (upgraded_of_sole below several).symm.trans hu
      obtain ⟨lead, written, trail, e, whole, ends, moved⟩ :=
        exists_toList_replaceOnly (c := c) h several
      rw [whole] at hl
      rw [moved]
      exact hl.replace expr ends printed
    | true =>
      have ranks := ranks_of_upgraded h below hu
      obtain ⟨template, _, _, hu', moved⟩ := upgraded_of_isMultiLine newline h several below ranks
      cases hu.symm.trans hu'
      obtain ⟨indent, last, _, inside⟩ := getLast?_indents h
      have ends := endsPrinted_trimEnd h
      have indents : l.lines.filterMap FloatingLine.indent? = l.indents := rfl
      have gained : new.toList = Text.trimEnd text.toList ++
          (newline.text.toList ++ (indent.toList ++ (template.expr.upgraded c).toList)
            ++ Text.trailing text.toList) := by
        simp [moved, indents, last]
      rw [gained]
      refine hl.insert ?_ ends ((printed.append _).append _)
      rw [Newline.holdsBehind_append, Newline.holdsBehind_append]
      exact ⟨Newline.holdsBehind_text ends newline, Newline.holdsBehind_of_not_mem inside, expr⟩

end FloatingList

theorem ManagedRuntime.newline_not_mem_forChannel : '\n' ∉ (forChannel c).toList := by
  have number : '\n' ∉ (Text.writeNumber c.major).toList := Text.not_mem_writeNumber (by decide)
  simp [forChannel, number]

-- A reference is written in one word.
theorem ImageReference.newline_not_mem_upgraded {i : ImageReference} (h : parse text = .ok i) :
    '\n' ∉ (i.upgraded c).toList := by
  have ⟨tag, isRead⟩ := isRead_of_parse h
  have outside : '\n' ∉ text.toList := fun hd => absurd (isRead.blank _ hd) (by decide)
  rw [isRead.text] at outside
  simp only [List.mem_append, List.mem_cons, not_or] at outside
  obtain ⟨⟨repository, _, inTag⟩, digest⟩ := outside
  have written := isRead.not_mem_written (c := c) inTag (by decide) (by decide) (by decide)
  rw [toList_upgraded]
  simp [repository, written, digest]

namespace Token

variable {kind : TokenKind} {t : Token}

-- The text of a value for a channel has the line endings that the value has. Every value has a text for
-- the channel but a list of floating expressions that cannot be ranked.
theorem upgraded_keeps_newline (h : parse text kind = .ok t) (hl : newline.HoldsIn text.toList)
    (c : Channel) : (∀ new, t.upgraded c newline = .ok new → newline.HoldsIn new.toList) ∧
      (t.Ranks → ∃ new, t.upgraded c newline = .ok new) := by
  refine ⟨fun new hu => ?_, fun ranks => exists_upgraded h ranks c newline⟩
  have ⟨_, hv⟩ := parse_eq_ok h
  unfold upgraded at hu
  cases kind <;> simp only [parseValue, mapError_eq_ok, map_eq_ok] at hv <;>
    obtain ⟨_, hp, hv⟩ := hv <;> rw [← hv] at hu
  case floatingChannel => exact FloatingList.holdsIn_upgraded hp hl hu
  all_goals cases hu
  case frameworkMoniker => exact MonikerList.holdsIn_upgraded hp hl
  case registrySemver =>
    exact Newline.holdsIn_of_not_mem (Semver.not_mem_render (by decide) (by decide) (by decide))
  case runtimeIdentifier => exact RuntimeIdentifierList.holdsIn_toPortable hp hl
  case managedRuntime => exact Newline.holdsIn_of_not_mem ManagedRuntime.newline_not_mem_forChannel
  case imageTag => exact Newline.holdsIn_of_not_mem (ImageReference.newline_not_mem_upgraded hp)

theorem upgraded_keeps_newline_crlf : let text := "6.0.x # old \r\n  7.0.1xx\r\n"
    ∃ t, parse text .floatingChannel = .ok t ∧ Newline.crlf.HoldsIn text.toList ∧
      (∀ new, t.upgraded (.ofNumbers 8 0) .crlf = .ok new → Newline.crlf.HoldsIn new.toList) ∧
      (t.Ranks → ∃ new, t.upgraded (.ofNumbers 8 0) .crlf = .ok new) := by
  intro text
  have h : parse text .floatingChannel = .ok ⟨text, .floating ⟨[
      .entry "" "6.0.x" " # old \r" ⟨.anyPatch 6 0 .lowerX, some " # old "⟩,
      .entry "  " "7.0.1xx" "\r" ⟨.band 7 0 1 .lower, none⟩, .blank ""]⟩⟩ := by
    decide +kernel
  have kept : Newline.crlf.HoldsIn text.toList := by decide +kernel
  exact ⟨_, h, kept, upgraded_keeps_newline h kept _⟩

end Token
end Repin
