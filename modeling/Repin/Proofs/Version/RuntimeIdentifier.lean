import Mathlib.Data.List.TakeWhile
import Repin.Proofs.Except
import Repin.Proofs.Text.Blank
import Repin.Proofs.Text.Split
import Repin.Version.RuntimeIdentifier
/-!
# Lists of runtime identifiers

A portable name is not read as a pinned one, so a list in which something was pinned never has the
same text in portable form.
-/
namespace Repin

variable {cs : List Char}

namespace RuntimeIdentifier

variable {r r' : RuntimeIdentifier}

-- What is known of an identifier that was read.
structure IsRead (cs : List Char) (r : RuntimeIdentifier) : Prop where
  raw : r.raw = String.ofList cs
  chars : ∀ c ∈ cs, isIdentifierChar c
  ne_nil : cs ≠ []
  rest : r.rest = String.ofList (cs.dropWhile (· ≠ '-'))
  family : r.family
    = String.ofList (Text.lowercase ((cs.takeWhile (· ≠ '-')).takeWhile Char.isAlpha))
  systemVersion : readSystemVersion ((cs.takeWhile (· ≠ '-')).dropWhile Char.isAlpha)
    = .ok r.systemVersion
  portability : classify r.family r.systemVersion.isSome = some r.portability

theorem isRead_of_read (h : read cs = .ok r) : IsRead cs r := by
  unfold read at h
  simp only [bind, Except.bind, pure, Except.pure, throw, throwThe, MonadExceptOf.throw] at h
  split at h
  case isTrue => cases h
  case isFalse hc =>
    simp only [Bool.or_eq_true, List.isEmpty_iff, Bool.not_eq_true', not_or, Bool.not_eq_false,
      List.all_eq_true] at hc
    split at h
    case isTrue => cases h
    case isFalse =>
      split at h
      case isTrue => cases h
      case isFalse =>
        split at h
        case h_1 => cases h
        case h_2 version hv =>
          split at h
          case h_1 => cases h
          case h_2 portability hp =>
            cases h
            exact ⟨rfl, hc.right, hc.left, rfl, rfl, hv, hp⟩

theorem isBlank_of_isIdentifierChar {c : Char} (h : isIdentifierChar c) : Text.isBlank c = false := by
  simp only [isIdentifierChar, Bool.or_eq_true, beq_iff_eq] at h
  obtain ((h | rfl) | rfl) | rfl := h
  · exact Text.isBlank_of_isAlphanum h
  · decide
  · decide
  · decide

-- The systems that portable names start with.
def portableSystems : List String :=
  ["win", "osx", "linux", "freebsd"]

theorem lookup_of_classify {family name : String} {pinned : Bool}
    (h : classify family pinned = some (.pinned name)) : pinnedFamilies.lookup family = some name := by
  unfold classify at h
  split at h
  case isTrue => cases h
  case isFalse =>
    split at h
    case isTrue => cases h
    case isFalse => simpa using h

theorem portableName_mem {family name : String} {pinned : Bool}
    (h : classify family pinned = some (.pinned name)) :
    name ∈ portableSystems ∨ name = "linux-musl" := by
  have names : ∀ p ∈ pinnedFamilies, p.2 ∈ portableSystems ∨ p.2 = "linux-musl" := by decide
  obtain ⟨before, after, heq, _⟩ := List.lookup_eq_some_iff.mp (lookup_of_classify h)
  exact names (family, name) (by simp [heq])

-- The name of a system brings no qualifier along.
theorem toPortable_of_system {name : String} (hp : r.portability = .pinned name)
    (hn : name ∈ portableSystems) : r.toPortable = name ++ r.rest := by
  have plain : ∀ s ∈ portableSystems, "-musl".toList.isSuffixOf s.toList = false := by decide
  simp only [toPortable, hp, plain name hn]
  simp

theorem dropWhile_hyphen (cs : List Char) :
    cs.dropWhile (· ≠ '-') = [] ∨ ∃ rest, cs.dropWhile (· ≠ '-') = '-' :: rest := by
  induction cs with
  | nil => exact .inl rfl
  | cons c cs ih =>
    by_cases hc : c = '-'
    case pos => exact .inr ⟨cs, by simp [hc]⟩
    case neg => simpa [hc] using ih

-- The one name that has a qualifier starts with its system too.
theorem exists_toPortable {name : String} (h : IsRead cs r) (hp : r.portability = .pinned name) :
    ∃ system ∈ portableSystems, ∃ tail, (tail = [] ∨ ∃ rest, tail = '-' :: rest) ∧
      r.toPortable.toList = system.toList ++ tail := by
  cases portableName_mem (hp ▸ h.portability)
  case inl hn =>
    refine ⟨name, hn, _, dropWhile_hyphen cs, ?_⟩
    rw [toPortable_of_system hp hn, h.rest, String.toList_append, String.toList_ofList]
  case inr hn =>
    subst hn
    have ⟨rest, hr⟩ : ∃ rest, r.toPortable = "linux-musl" ++ String.ofList rest := by
      simp only [toPortable, hp]
      exact ⟨_, rfl⟩
    exact ⟨"linux", by decide, '-' :: ("musl".toList ++ rest), .inr ⟨_, rfl⟩, by simp [hr]⟩

-- The name of a system is letters alone, so it ends where the qualifiers start.
theorem parts_of_system {system : String} {tail : List Char} (hs : system ∈ portableSystems)
    (ht : tail = [] ∨ ∃ rest, tail = '-' :: rest) :
    (system.toList ++ tail).takeWhile (· ≠ '-') = system.toList ∧
      (system.toList ++ tail).dropWhile (· ≠ '-') = tail ∧
      system.toList.takeWhile Char.isAlpha = system.toList ∧
      system.toList.dropWhile Char.isAlpha = [] := by
  have outside : portableSystems.all fun s => s.toList.all fun c => decide (c ≠ '-') && c.isAlpha := by
    decide
  simp only [List.all_eq_true, Bool.and_eq_true] at outside
  have hyphen := fun c hc => (outside system hs c hc).left
  have alpha := fun c hc => (outside system hs c hc).right
  refine ⟨?_, ?_, List.takeWhile_eq_self_iff.mpr alpha, List.dropWhile_eq_nil_iff.mpr alpha⟩
  · rw [List.takeWhile_append_of_pos hyphen]
    obtain rfl | ⟨rest, rfl⟩ := ht <;> simp
  · rw [List.dropWhile_append_of_pos hyphen]
    obtain rfl | ⟨rest, rfl⟩ := ht <;> simp

-- Without a version a system is a portable family.
theorem classify_system {system : String} (hs : system ∈ portableSystems) :
    classify (String.ofList (Text.lowercase system.toList)) false = some .portable := by
  have portable : ∀ s ∈ portableSystems,
      classify (String.ofList (Text.lowercase s.toList)) false = some .portable := by decide
  exact portable system hs

-- A system without a version is a portable family, whatever qualifiers follow it.
theorem portability_of_system {system : String} {tail : List Char} (hs : system ∈ portableSystems)
    (ht : tail = [] ∨ ∃ rest, tail = '-' :: rest) (h : IsRead (system.toList ++ tail) r) :
    r.portability = .portable := by
  have ⟨front, _, letters, digits⟩ := parts_of_system hs ht
  have version := h.systemVersion
  rw [front, digits] at version
  have portability := h.portability
  rw [h.family, front, letters, ← Except.ok.inj version] at portability
  exact Option.some.inj (portability.symm.trans (classify_system hs))

theorem portability_toPortable {name : String} (h : IsRead cs r) (hp : r.portability = .pinned name)
    (h' : IsRead r.toPortable.toList r') : r'.portability = .portable := by
  have ⟨system, hs, tail, ht, heq⟩ := exists_toPortable h hp
  exact portability_of_system hs ht (heq ▸ h')

theorem isIdentifierChar_of_mem_toPortable {c : Char} (h : IsRead cs r)
    (hc : c ∈ r.toPortable.toList) : isIdentifierChar c := by
  have inRest {d : Char} (hd : d ∈ r.rest.toList) : isIdentifierChar d := by
    rw [h.rest, String.toList_ofList] at hd
    exact h.chars d ((List.dropWhile_suffix _).mem hd)
  have inStripped {d : Char} (hd : d ∈ (Text.stripStart? "-musl".toList r.rest.toList).getD r.rest.toList) :
      isIdentifierChar d := by
    cases hs : Text.stripStart? "-musl".toList r.rest.toList
    case none =>
      rw [hs] at hd
      exact inRest hd
    case some stripped =>
      rw [hs] at hd
      exact inRest (Text.stripStart?_eq_some_iff.mp hs ▸ List.mem_append_right _ hd)
  unfold toPortable at hc
  split at hc
  case h_1 name hp =>
    have names : ∀ n, n ∈ portableSystems ∨ n = "linux-musl" → ∀ d ∈ n.toList, isIdentifierChar d := by
      have chars : ("linux-musl" :: portableSystems).all fun n => n.toList.all isIdentifierChar := by
        decide
      simp only [List.all_eq_true] at chars
      exact fun n hn => chars n (List.mem_cons.mpr hn.symm)
    simp only [String.toList_append, String.toList_ofList, List.mem_append] at hc
    cases hc
    case inl hc => exact names name (portableName_mem (hp ▸ h.portability)) c hc
    case inr hc =>
      split at hc
      case isTrue => exact inStripped hc
      case isFalse => exact inRest hc
  case h_2 => exact h.chars c (by simpa [h.raw] using hc)
  case h_3 => exact h.chars c (by simpa [h.raw] using hc)

end RuntimeIdentifier

namespace IdentifierItem

variable {r : RuntimeIdentifier} {c : Char}

theorem read_eq_identifier (h : read cs = identifier r) : RuntimeIdentifier.IsRead cs r := by
  unfold read at h
  split at h
  case h_1 rid hr =>
    cases h
    have hr := mapError_eq_ok.mp hr
    rw [String.toList_ofList] at hr
    exact RuntimeIdentifier.isRead_of_read hr
  case h_2 => cases h

theorem read_eq_other {text : String} (h : read cs = other text) : text = String.ofList cs := by
  unfold read at h
  split at h
  case h_1 => cases h
  case h_2 => cases h; rfl

-- What an item becomes is its own text, or it is made of the characters of identifiers.
theorem toList_toPortable (cs : List Char) : (read cs).toPortable.toList = cs ∨
    ∀ c ∈ (read cs).toPortable.toList, RuntimeIdentifier.isIdentifierChar c := by
  cases hr : read cs
  case other text => exact .inl (by simp [toPortable, read_eq_other hr])
  case identifier r =>
    exact .inr fun c => RuntimeIdentifier.isIdentifierChar_of_mem_toPortable (read_eq_identifier hr)

theorem isTrimmed_toPortable (h : Text.IsTrimmed cs) :
    Text.IsTrimmed (read cs).toPortable.toList := by
  cases toList_toPortable cs
  case inl heq => rwa [heq]
  case inr chars =>
    exact Text.isTrimmed_of_forall fun c hc => RuntimeIdentifier.isBlank_of_isIdentifierChar (chars c hc)

theorem semicolon_not_mem_toPortable (h : ';' ∉ cs) : ';' ∉ (read cs).toPortable.toList := by
  cases toList_toPortable cs
  case inl heq => rwa [heq]
  case inr chars => exact fun hc => absurd (chars _ hc) (by decide)

-- In portable form nothing reads as pinned.
theorem isPinned_of_read_toPortable (h : read (read cs).toPortable.toList = identifier r) :
    r.isPinned = false := by
  cases hr : read cs
  case other text =>
    rw [hr, toPortable, read_eq_other hr, String.toList_ofList, hr] at h
    cases h
  case identifier rid =>
    have isRead := read_eq_identifier hr
    rw [hr, toPortable] at h
    cases hp : rid.portability
    case pinned name =>
      have := RuntimeIdentifier.portability_toPortable isRead hp (read_eq_identifier h)
      simp [RuntimeIdentifier.isPinned, this]
    all_goals
      rw [RuntimeIdentifier.toPortable, hp, isRead.raw, String.toList_ofList, hr] at h
      cases h
      simp [RuntimeIdentifier.isPinned, hp]

end IdentifierItem

namespace RuntimeIdentifierList

variable {text : String} {l : RuntimeIdentifierList} {item : IdentifierItem}

theorem mem_items (h : parse text = .ok l) : item ∈ l.items ↔
    ∃ cs ∈ Text.splitAt ';' text.toList, Text.trim cs ≠ [] ∧ IdentifierItem.read (Text.trim cs) = item := by
  unfold parse at h
  dsimp only at h
  split at h <;> cases h
  simp [and_assoc]

-- The pieces of the portable text are the portable items.
theorem splitAt_toPortable (h : parse text = .ok l) (hl : l.isPortable = false) :
    Text.splitAt ';' l.toPortable.toList
      = (l.items.map IdentifierItem.toPortable).eraseDups.map String.toList := by
  have ⟨rid, hm, _⟩ : ∃ rid, rid ∈ l.identifiers ∧ rid.isPinned := by
    simpa [isPortable] using hl
  have ⟨item, hi, _⟩ := List.mem_filterMap.mp hm
  rw [toPortable, if_neg (by simp [hl]), String.toList_intercalate]
  apply Text.splitAt_intercalate
  case ne =>
    have kept : item.toPortable ∈ (l.items.map IdentifierItem.toPortable).eraseDups :=
      List.mem_eraseDups.mpr (List.mem_map_of_mem hi)
    exact List.ne_nil_of_mem (List.mem_map_of_mem kept)
  case h =>
    intro piece hp
    simp only [List.mem_map, List.mem_eraseDups] at hp
    obtain ⟨q, ⟨item', hi', rfl⟩, rfl⟩ := hp
    obtain ⟨cs', hcs', _, rfl⟩ := (mem_items h).mp hi'
    apply IdentifierItem.semicolon_not_mem_toPortable
    exact fun hm => Text.not_mem_of_mem_splitAt hcs' (Text.mem_of_mem_trim hm)

theorem toPortable_ne (h : parse text = .ok l) (hl : l.isPortable = false) : l.toPortable ≠ text := by
  intro heq
  have ⟨rid, hm, pinned⟩ : ∃ rid, rid ∈ l.identifiers ∧ rid.isPinned := by
    simpa [isPortable] using hl
  have ⟨item, hi, hr⟩ := List.mem_filterMap.mp hm
  obtain ⟨cs, hcs, ne, read⟩ := (mem_items h).mp hi
  rw [← heq, splitAt_toPortable h hl] at hcs
  simp only [List.mem_map, List.mem_eraseDups] at hcs
  obtain ⟨q, ⟨item', hi', rfl⟩, rfl⟩ := hcs
  obtain ⟨cs', _, _, rfl⟩ := (mem_items h).mp hi'
  rw [Text.trim_eq_self (IdentifierItem.isTrimmed_toPortable (Text.isTrimmed_trim cs'))] at read
  cases item
  case other => cases hr
  case identifier r =>
    cases hr
    have := IdentifierItem.isPinned_of_read_toPortable read
    simp [pinned] at this

end RuntimeIdentifierList
end Repin
