import Mathlib.Data.List.Induction
import Repin.Proofs.Version.MonikerItems
import Repin.Proofs.Version.RuntimeIdentifier
/-!
# Portable lists of runtime identifiers

The portable name of a pinned system is read as an identifier again, and as a portable one. So writing
a list in portable form gives a list in portable form: the items that need no change keep their text,
and what two items become alike is written once, where it came first.

Main statement: `RuntimeIdentifierList.toPortable_projects`.
-/
namespace Repin

variable {cs : List Char}

-- The members of a list, each where it occurs first.
structure FirstOccurrences {α : Type} [BEq α] (as kept : List α) : Prop where
  mem : ∀ a, a ∈ kept ↔ a ∈ as
  order : kept.Pairwise fun a b => as.idxOf a < as.idxOf b

-- The induction is from the right, since a further member is kept only if it is new.
theorem firstOccurrences_eraseDups {α : Type} [BEq α] [LawfulBEq α] (as : List α) :
    FirstOccurrences as as.eraseDups where
  mem a := List.mem_eraseDups
  order := by
    induction as using List.reverseRecOn with
    | nil => simp
    | append_singleton as a ih =>
      have old : as.eraseDups.Pairwise fun b c => (as ++ [a]).idxOf b < (as ++ [a]).idxOf c := by
        refine ih.imp_of_mem fun hb hc lt => ?_
        rwa [List.idxOf_append_of_mem (List.mem_eraseDups.mp hb),
          List.idxOf_append_of_mem (List.mem_eraseDups.mp hc)]
      rw [List.eraseDups_append]
      by_cases ha : a ∈ as
      case pos => simpa [List.removeAll, ha] using old
      case neg =>
        have new : [a].removeAll as = [a] := by simp [List.removeAll, ha]
        rw [new, List.pairwise_append]
        refine ⟨old, by simp [List.eraseDups_cons], fun b hb c hc => ?_⟩
        obtain rfl : c = a := by simpa using hc
        have hb := List.mem_eraseDups.mp hb
        rw [List.idxOf_append_of_mem hb, List.idxOf_append_of_notMem ha]
        exact Nat.lt_of_lt_of_le (List.idxOf_lt_length_iff.mpr hb) (Nat.le_add_right ..)

namespace RuntimeIdentifier

variable {r : RuntimeIdentifier}

theorem segments_of_read (h : read cs = .ok r) :
    r.rest.toList ≠ ['-'] ∧ hasDoubleHyphen r.rest.toList = false := by
  have rest := (isRead_of_read h).rest
  unfold read at h
  simp only [bind, Except.bind, pure, Except.pure, throw, throwThe, MonadExceptOf.throw] at h
  split at h
  case isTrue => cases h
  case isFalse =>
    split at h
    case isTrue => cases h
    case isFalse hc => simpa [rest] using hc

theorem exists_read_of_system {system : String} {tail : List Char} (hs : system ∈ portableSystems)
    (ht : tail = [] ∨ ∃ rest, tail = '-' :: rest) (ne : tail ≠ ['-'])
    (single : hasDoubleHyphen tail = false)
    (chars : ∀ c ∈ system.toList ++ tail, isIdentifierChar c) :
    ∃ r, read (system.toList ++ tail) = .ok r ∧ r.portability = .portable := by
  have ⟨front, back, letters, digits⟩ := parts_of_system hs ht
  have named : ∀ s ∈ portableSystems, s.toList ≠ [] ∧
      (String.ofList (Text.lowercase s.toList)).isEmpty = false := by decide
  have ⟨nonempty, family⟩ := named system hs
  have allowed : ((system.toList ++ tail).isEmpty || !(system.toList ++ tail).all isIdentifierChar)
      = false := by
    simp only [Bool.or_eq_false_iff, Bool.not_eq_false', List.all_eq_true]
    exact ⟨by simp [nonempty], chars⟩
  refine ⟨{
    raw := String.ofList (system.toList ++ tail)
    family := String.ofList (Text.lowercase system.toList)
    systemVersion := none
    rest := String.ofList tail
    portability := .portable }, ?_, rfl⟩
  have version : readSystemVersion [] = .ok none := rfl
  simp only [read, allowed, front, back, letters, digits, version]
  simp [family, ne, single, classify_system hs, bind, Except.bind, pure, Except.pure]

-- Behind the portable name of a pinned system stand the qualifiers of the identifier. The one qualifier
-- that a name brings along is not repeated.
theorem toPortable_of_pinned {name : String} (h : IsRead cs r) (hp : r.portability = .pinned name) :
    ∃ qualifiers, r.toPortable = name ++ qualifiers ∧
      (name ∈ portableSystems ∧ r.rest = qualifiers ∨
        name = "linux-musl" ∧ (r.rest = qualifiers ∨ r.rest = "-musl" ++ qualifiers)) := by
  cases portableName_mem (hp ▸ h.portability)
  case inl hn => exact ⟨r.rest, toPortable_of_system hp hn, .inl ⟨hn, rfl⟩⟩
  case inr hn =>
    subst hn
    refine ⟨_, by rw [toPortable, hp], .inr ⟨rfl, ?_⟩⟩
    rw [if_pos (by decide)]
    cases hs : Text.stripStart? "-musl".toList r.rest.toList with
    | none => exact .inl String.ofList_toList.symm
    | some rest =>
      refine .inr (String.toList_inj.mp ?_)
      rw [Text.stripStart?_eq_some_iff.mp hs]
      simp

-- So nothing that is pinned is lost: its portable form is an identifier, and a portable one.
theorem exists_read_toPortable {name : String} (h : read cs = .ok r)
    (hp : r.portability = .pinned name) :
    ∃ r', read r.toPortable.toList = .ok r' ∧ r'.portability = .portable := by
  have isRead := isRead_of_read h
  have ⟨ne, single⟩ := segments_of_read h
  have chars : ∀ c ∈ r.toPortable.toList, isIdentifierChar c :=
    fun c => isIdentifierChar_of_mem_toPortable isRead
  have tail : r.rest.toList = [] ∨ ∃ rest, r.rest.toList = '-' :: rest := by
    rw [isRead.rest, String.toList_ofList]
    exact dropWhile_hyphen cs
  obtain ⟨qualifiers, written, ⟨hn, rfl⟩ | ⟨rfl, rest⟩⟩ := toPortable_of_pinned isRead hp
  case inl =>
    rw [written, String.toList_append] at chars ⊢
    exact exists_read_of_system hn tail ne single chars
  case inr =>
    have whole : r.toPortable.toList = "linux".toList ++ ("-musl".toList ++ qualifiers.toList) := by
      rw [written, String.toList_append]
      rfl
    have inner : hasDoubleHyphen qualifiers.toList = false := by
      obtain rfl | rest := rest
      · exact single
      · rw [rest, String.toList_append] at single
        exact single
    rw [whole] at chars ⊢
    exact exists_read_of_system (by decide) (.inr ⟨_, rfl⟩) (by simp) inner chars

end RuntimeIdentifier

-- What is read in an item, and its text when nothing is.
theorem IdentifierItem.read_cases (item : List Char) :
    (∃ r, RuntimeIdentifier.read item = .ok r ∧ read item = identifier r) ∨
      (∀ r, RuntimeIdentifier.read item ≠ .ok r) ∧ read item = other (String.ofList item) := by
  unfold read RuntimeIdentifier.parse
  rw [String.toList_ofList]
  cases RuntimeIdentifier.read item with
  | ok r => exact .inl ⟨r, rfl, rfl⟩
  | error => exact .inr ⟨by simp, rfl⟩

namespace RuntimeIdentifierList

open MonikerList (itemsOf)

variable {text : String} {l : RuntimeIdentifierList} {item : List Char}

-- How an item is written in a portable list.
inductive Rewritten (item : List Char) : String → Prop
  -- No identifier.
  | other : (∀ r, RuntimeIdentifier.read item ≠ .ok r) → Rewritten item (String.ofList item)
  | kept {r : RuntimeIdentifier} : RuntimeIdentifier.read item = .ok r →
    r.portability = .portable ∨ r.family ∈ RuntimeIdentifier.standaloneFamilies →
      Rewritten item (String.ofList item)
  -- Pinned: the portable name stands for the system, and the qualifiers stay.
  | moved {r r' : RuntimeIdentifier} {name qualifiers : String} :
    RuntimeIdentifier.read item = .ok r → r.portability = .pinned name →
      r.family ∉ RuntimeIdentifier.standaloneFamilies → r.toPortable = name ++ qualifiers →
        r.rest = qualifiers ∨ name = "linux-musl" ∧ r.rest = "-musl" ++ qualifiers →
          RuntimeIdentifier.read r.toPortable.toList = .ok r' → r'.portability = .portable →
            Rewritten item r.toPortable

theorem rewritten (item : List Char) : Rewritten item (IdentifierItem.read item).toPortable := by
  obtain ⟨r, read, identifier⟩ | ⟨none, other⟩ := IdentifierItem.read_cases item
  case inr =>
    rw [other]
    exact .other none
  case inl =>
    have isRead := RuntimeIdentifier.isRead_of_read read
    have classified := isRead.portability
    rw [identifier, IdentifierItem.toPortable]
    by_cases standalone : r.family ∈ RuntimeIdentifier.standaloneFamilies
    case pos =>
      rw [RuntimeIdentifier.classify, if_pos standalone] at classified
      rw [RuntimeIdentifier.toPortable, ← Option.some.inj classified, isRead.raw]
      exact .kept read (.inr standalone)
    case neg =>
      cases hp : r.portability with
      | pinned name =>
        obtain ⟨r', again, portable⟩ := RuntimeIdentifier.exists_read_toPortable read hp
        obtain ⟨_, written, rest⟩ := RuntimeIdentifier.toPortable_of_pinned isRead hp
        exact .moved read hp standalone written (by grind) again portable
      | portable =>
        rw [RuntimeIdentifier.toPortable, hp, isRead.raw]
        exact .kept read (.inl hp)
      | noEquivalent =>
        -- only the families without a portable name are classified so
        rw [RuntimeIdentifier.classify, if_neg standalone, hp] at classified
        split at classified
        case isTrue => cases classified
        case isFalse => simp at classified

theorem Rewritten.ne_empty {written : String} (h : Rewritten item written) (ne : item ≠ []) :
    written ≠ "" := by
  cases h with
  | other | kept => simpa using ne
  | moved _ _ _ _ _ again =>
    rintro empty
    rw [empty] at again
    cases again

-- A list of identifiers is cut into items as a list of monikers is.
theorem parse_eq_ok_iff : parse text = .ok l ↔
    l = ⟨text, (itemsOf text.toList).map IdentifierItem.read⟩ ∧ l.identifiers ≠ [] := by
  have items : (((Text.splitAt ';' text.toList).map Text.trim).filter (!·.isEmpty)).map
      IdentifierItem.read = (itemsOf text.toList).map IdentifierItem.read := by
    refine congrArg _ (List.filter_congr fun piece _ => ?_)
    cases piece <;> rfl
  have some (is : List IdentifierItem) :
      is.any (·.identifier?.isSome) ↔ is.filterMap IdentifierItem.identifier? ≠ [] := by
    simp [Option.isSome_iff_exists, Option.eq_none_iff_forall_ne_some]
  unfold parse identifiers
  dsimp only
  rw [items, ← some]
  constructor
  case mp =>
    intro h
    split at h <;> cases h
    exact ⟨rfl, ‹_›⟩
  case mpr =>
    rintro ⟨rfl, identifier⟩
    exact if_pos identifier

-- The items of the portable text are the portable items, each once.
theorem itemsOf_toPortable (h : parse text = .ok l) (hl : l.isPortable = false) :
    itemsOf l.toPortable.toList
      = (l.items.map IdentifierItem.toPortable).eraseDups.map String.toList := by
  have item {written : String} (hw : written ∈ (l.items.map IdentifierItem.toPortable).eraseDups) :
      Text.IsTrimmed written.toList ∧ written.toList ≠ [] := by
    simp only [List.mem_eraseDups, List.mem_map] at hw
    obtain ⟨_, hi, rfl⟩ := hw
    obtain ⟨cs, _, ne, rfl⟩ := (mem_items h).mp hi
    refine ⟨IdentifierItem.isTrimmed_toPortable (Text.isTrimmed_trim cs), fun empty => ?_⟩
    exact (rewritten (Text.trim cs)).ne_empty ne (String.toList_eq_nil_iff.mp empty)
  rw [itemsOf, splitAt_toPortable h hl, List.map_map]
  have trimmed : (l.items.map IdentifierItem.toPortable).eraseDups.map (Text.trim ∘ String.toList)
      = (l.items.map IdentifierItem.toPortable).eraseDups.map String.toList :=
    List.map_congr_left fun _ hw => Text.trim_eq_self (item hw).left
  rw [trimmed, List.filter_eq_self]
  intro piece hp
  obtain ⟨_, hw, rfl⟩ := List.mem_map.mp hp
  exact decide_eq_true (item hw).right

-- The text in portable form is a list again, for what was pinned is an identifier still. None of its
-- identifiers is pinned.
theorem exists_parse_toPortable (h : parse text = .ok l) (hl : l.isPortable = false) :
    ∃ l', parse l.toPortable = .ok l' ∧ l'.text = l.toPortable ∧ l'.isPortable := by
  have items := itemsOf_toPortable h hl
  refine ⟨_, parse_eq_ok_iff.mpr ⟨rfl, ?identifier⟩, rfl, ?portable⟩
  case identifier =>
    obtain ⟨rid, hm, pinned⟩ : ∃ rid, rid ∈ l.identifiers ∧ rid.isPinned := by
      simpa [isPortable] using hl
    obtain ⟨item, hi, hr⟩ := List.mem_filterMap.mp hm
    obtain ⟨cs, _, _, read⟩ := (mem_items h).mp hi
    obtain ⟨r, parsed, identifier⟩ | ⟨_, other⟩ := IdentifierItem.read_cases (Text.trim cs)
    case inr =>
      rw [← read, other] at hr
      cases hr
    case inl =>
      rw [← read, identifier] at hr
      cases hr
      obtain ⟨name, hp⟩ : ∃ name, rid.portability = .pinned name := by
        unfold RuntimeIdentifier.isPinned at pinned
        split at pinned
        case h_1 name hp => exact ⟨name, hp⟩
        all_goals cases pinned
      obtain ⟨r', again, _⟩ := RuntimeIdentifier.exists_read_toPortable parsed hp
      have mem : rid.toPortable.toList ∈ itemsOf l.toPortable.toList := by
        rw [items]
        apply List.mem_map_of_mem
        rw [List.mem_eraseDups, ← IdentifierItem.toPortable, ← identifier, read]
        exact List.mem_map_of_mem hi
      obtain ⟨r'', again', identifier'⟩ | ⟨none, _⟩ :=
        IdentifierItem.read_cases rid.toPortable.toList
      case inr => exact absurd again (none r')
      case inl =>
        exact List.ne_nil_of_mem (List.mem_filterMap.mpr
          ⟨_, List.mem_map_of_mem mem, by rw [identifier']; rfl⟩)
  case portable =>
    simp only [isPortable, identifiers, List.all_eq_true, List.mem_filterMap, List.mem_map, items,
      List.mem_eraseDups]
    rintro r ⟨_, ⟨_, ⟨_, ⟨_, hi, rfl⟩, rfl⟩, rfl⟩, hr⟩
    obtain ⟨cs, _, _, rfl⟩ := (mem_items h).mp hi
    cases read : IdentifierItem.read (IdentifierItem.read (Text.trim cs)).toPortable.toList with
    | other =>
      rw [read] at hr
      cases hr
    | identifier rid =>
      rw [read] at hr
      cases hr
      rw [IdentifierItem.isPinned_of_read_toPortable read]
      rfl

-- A list in which something is pinned is written in portable form item by item. Reading what was
-- written and writing it again changes nothing.
theorem toPortable_projects (h : parse text = .ok l) (hl : l.isPortable = false) :
    ∃ texts kept, List.Forall₂ Rewritten (itemsOf text.toList) texts ∧
      FirstOccurrences texts kept ∧ l.toPortable = ";".intercalate kept ∧ l.toPortable ≠ "" ∧
      itemsOf l.toPortable.toList = kept.map String.toList ∧
      ∃ l', parse l.toPortable = .ok l' ∧ l'.isPortable ∧ l'.toPortable = l.toPortable := by
  obtain ⟨l', again, text', portable⟩ := exists_parse_toPortable h hl
  have ⟨items, _⟩ := parse_eq_ok_iff.mp h
  refine ⟨_, _, ?rewritten, firstOccurrences_eraseDups _, if_neg (by simp [hl]), ?ne,
    itemsOf_toPortable h hl, l', again, portable, ?fixed⟩
  case rewritten =>
    rw [items, List.map_map, List.forall₂_map_right_iff, List.forall₂_same]
    exact fun item _ => rewritten item
  case ne =>
    intro empty
    rw [empty] at again
    cases again
  case fixed => rw [toPortable, if_pos portable, text']

theorem toPortable_projects_musl :
    let text := "win10-x64; $(Rids);alpine.3.18-musl-x64;;ios-arm64;WIN7-x64 ;linux-x64"
    ∃ l, parse text = .ok l ∧ l.isPortable = false ∧
    ∃ texts kept, List.Forall₂ Rewritten (itemsOf text.toList) texts ∧
      FirstOccurrences texts kept ∧ l.toPortable = ";".intercalate kept ∧ l.toPortable ≠ "" ∧
      itemsOf l.toPortable.toList = kept.map String.toList ∧
      ∃ l', parse l.toPortable = .ok l' ∧ l'.isPortable ∧ l'.toPortable = l.toPortable := by
  intro text
  have h : parse text = .ok ⟨text, (itemsOf text.toList).map IdentifierItem.read⟩ :=
    parse_eq_ok_iff.mpr ⟨rfl, by decide +kernel⟩
  have pinned : isPortable ⟨text, (itemsOf text.toList).map IdentifierItem.read⟩ = false := by
    decide +kernel
  exact ⟨_, h, pinned, toPortable_projects h pinned⟩

end RuntimeIdentifierList
end Repin
