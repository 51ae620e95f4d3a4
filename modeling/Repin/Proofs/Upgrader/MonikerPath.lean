import Mathlib.Data.List.TakeDrop
import Mathlib.Data.List.TakeWhile
import Repin.Proofs.Text.Blank
import Repin.Proofs.Text.Bytes
import Repin.Proofs.Text.Split
import Repin.Proofs.Version.Moniker
import Repin.Upgrader.MonikerPath
/-!
# Paths with another framework

The folder that names a framework is found again, in its place, when another framework takes it.
-/
namespace Repin

theorem Text.isBlank_of_isDecimalDigit {c : Char} (h : isDecimalDigit c) : isBlank c = false := by
  cases hb : isBlank c
  case false => rfl
  case true =>
    have blanks : c.toNat ∈ [0x09, 0x0A, 0x0B, 0x0C, 0x0D, 0x20, 0x85, 0xA0, 0x1680, 0x2000, 0x2001,
        0x2002, 0x2003, 0x2004, 0x2005, 0x2006, 0x2007, 0x2008, 0x2009, 0x200A, 0x2028, 0x2029, 0x202F,
        0x205F, 0x3000] := by
      simp [isBlank] at hb
      simp only [List.mem_cons, List.not_mem_nil, or_false]
      omega
    have none : ∀ n ∈ [0x09, 0x0A, 0x0B, 0x0C, 0x0D, 0x20, 0x85, 0xA0, 0x1680, 0x2000, 0x2001,
        0x2002, 0x2003, 0x2004, 0x2005, 0x2006, 0x2007, 0x2008, 0x2009, 0x200A, 0x2028, 0x2029, 0x202F,
        0x205F, 0x3000], (zeroDigits.any fun first => first ≤ n && n < first + 10) = false := by
      decide
    rw [isDecimalDigit, none _ blanks] at h
    cases h

namespace MonikerPath

variable {cs folder name rest : List Char} {c : Channel} {start first last : Nat}

-- The name of a framework is `net`, digits, a dot and digits again.
theorem isMoniker_iff : isMoniker name ↔ ∃ ds es, name = 'n' :: 'e' :: 't' :: (ds ++ '.' :: es) ∧
    ds ≠ [] ∧ es ≠ [] ∧ (∀ d ∈ ds, Text.isDecimalDigit d) ∧ ∀ d ∈ es, Text.isDecimalDigit d := by
  constructor
  case mp =>
    intro h
    unfold isMoniker at h
    split at h
    case h_2 => cases h
    case h_1 rest =>
      dsimp only at h
      split at h
      case h_2 => cases h
      case h_1 es hs =>
        simp only [List.span_eq_takeWhile_dropWhile, Bool.and_eq_true, Bool.not_eq_true',
          List.isEmpty_eq_false_iff, List.all_eq_true] at h hs
        refine ⟨_, es, ?_, h.left.left, h.left.right, fun d hd => List.mem_takeWhile_imp hd, h.right⟩
        rw [← hs, List.takeWhile_append_dropWhile]
  case mpr =>
    rintro ⟨ds, es, rfl, ne, ne', digits, digits'⟩
    have dot : Text.isDecimalDigit '.' = false := by decide
    simp [isMoniker, List.span_eq_takeWhile_dropWhile, List.takeWhile_append_of_pos digits,
      List.dropWhile_append_of_pos digits, dot, ne, ne']
    exact digits'

-- A folder that names a framework: no separator is in it.
structure IsFolder (name : List Char) : Prop where
  isMoniker : isMoniker name
  inside : ∀ d ∈ name, isSeparator d = false

theorem findFrom_append (h : ∀ d ∈ name, isSeparator d = false) (folder rest : List Char) :
    findFrom start folder (name ++ rest) = findFrom start (name.reverse ++ folder) rest := by
  induction name generalizing folder with
  | nil => rfl
  | cons d name ih =>
    have ⟨first, others⟩ := List.forall_mem_cons.mp h
    simp [findFrom, first, ih others]

-- What can stand behind a folder.
def EndsFolder (cs : List Char) : Prop :=
  ∀ d ∈ cs.head?, isSeparator d

theorem findFrom_folder (h : IsFolder name) (hr : EndsFolder rest) :
    findFrom start [] (name ++ rest) = some (start, start + Text.byteLength name) := by
  rw [findFrom_append h.inside, List.append_nil]
  cases rest with
  | nil => simp [findFrom, h.isMoniker, Text.byteLength_reverse]
  | cons d rest => simp [findFrom, hr d rfl, h.isMoniker, Text.byteLength_reverse]

theorem findFrom_separator {d : Char} (hd : isSeparator d) (hm : isMoniker folder.reverse = false) :
    findFrom start folder (d :: cs) = findFrom (start + Text.byteLength folder + 1) [] cs := by
  simp [findFrom, hd, hm]

theorem utf8Size_of_isSeparator {d : Char} (h : isSeparator d) : d.utf8Size = 1 := by
  simp only [isSeparator, Bool.or_eq_true, beq_iff_eq] at h
  obtain rfl | rfl := h <;> decide

-- The folders of a path, in order.
def folders (cs : List Char) : List (List Char) :=
  Text.splitOn isSeparator cs

theorem folders_append_separator {d : Char} (h : ∀ d ∈ name, isSeparator d = false) (hd : isSeparator d) :
    folders (name ++ d :: rest) = name :: folders rest := by
  unfold folders
  rw [Text.splitOn_append hd, Text.splitOn_eq_singleton fun d hd => by simp [h d hd]]
  rfl

theorem folders_eq_singleton (h : ∀ d ∈ name, isSeparator d = false) : folders name = [name] :=
  Text.splitOn_eq_singleton fun d hd => by simp [h d hd]

-- A path around its first folder that names a framework. Any other folder may take its place.
structure FirstFolder (cs before name after : List Char) : Prop where
  cut : cs = before ++ (name ++ after)
  isFolder : IsFolder name
  found {other : List Char} (start : Nat) : IsFolder other →
    findFrom start [] (before ++ (other ++ after))
      = some (start + Text.byteLength before, start + Text.byteLength before + Text.byteLength other)
  around : ∃ front back, (∀ f ∈ front, MonikerPath.isMoniker f = false) ∧
    ∀ other, (∀ d ∈ other, isSeparator d = false) →
      folders (before ++ (other ++ after)) = front ++ other :: back

-- The place is where the path starts.
theorem FirstFolder.here (h : IsFolder name) (ends : EndsFolder rest) :
    FirstFolder (name ++ rest) [] name rest where
  cut := rfl
  isFolder := h
  found start ho := findFrom_folder ho ends
  around := by
    cases rest with
    | nil =>
      exact ⟨[], [], by simp, fun other ho => by simpa using folders_eq_singleton ho⟩
    | cons d rest =>
      exact ⟨[], folders rest, by simp, fun other ho => folders_append_separator ho (ends d rfl)⟩

-- A folder that is left stands in front of the place.
theorem FirstFolder.behind {d : Char} {before after : List Char} (h : FirstFolder cs before name after)
    (inside : ∀ d ∈ folder, isSeparator d = false) (hm : isMoniker folder = false) (hd : isSeparator d) :
    FirstFolder (folder ++ d :: cs) (folder ++ d :: before) name after where
  cut := by simp [h.cut]
  isFolder := h.isFolder
  found {other} start ho := by
    have size := utf8Size_of_isSeparator hd
    have moved := h.found (start + Text.byteLength folder + 1) ho
    rw [List.append_assoc, List.cons_append, findFrom_append inside, List.append_nil,
      findFrom_separator hd (by simpa using hm), Text.byteLength_reverse, moved]
    simp only [Text.byteLength_append, Text.byteLength_cons, size, Nat.add_assoc]
  around := by
    obtain ⟨front, back, unnamed, same⟩ := h.around
    refine ⟨folder :: front, back, by simpa [hm] using unnamed, fun other ho => ?_⟩
    rw [List.append_assoc, List.cons_append, folders_append_separator inside hd, same other ho,
      List.cons_append]

-- The first folder that names a framework.
theorem exists_folder (inside : ∀ d ∈ folder, isSeparator d = false)
    (h : findFrom start folder cs = some (first, last)) :
    ∃ before name after, FirstFolder (folder.reverse ++ cs) before name after ∧
      first = start + Text.byteLength before ∧ last = first + Text.byteLength name := by
  have reverse : ∀ d ∈ folder.reverse, isSeparator d = false := by simpa using inside
  induction cs generalizing folder start with
  | nil =>
    unfold findFrom at h
    split at h
    case isFalse => cases h
    case isTrue named =>
      cases h
      have ends : EndsFolder [] := by simp [EndsFolder]
      exact ⟨_, _, _, .here ⟨named, reverse⟩ ends, by simp, by rw [Text.byteLength_reverse]⟩
  | cons d cs ih =>
    unfold findFrom at h
    split at h
    case isTrue separator =>
      split at h
      case isTrue named =>
        cases h
        have ends : EndsFolder (d :: cs) := by simpa [EndsFolder] using separator
        exact ⟨_, _, _, .here ⟨named, reverse⟩ ends, by simp, by rw [Text.byteLength_reverse]⟩
      case isFalse unnamed =>
        have ⟨before, name, after, cut, place, length⟩ := ih (by simp) h (by simp)
        have size := utf8Size_of_isSeparator separator
        refine ⟨_, name, after, cut.behind reverse (by simpa using unnamed) separator, ?_, length⟩
        simp only [Text.byteLength_append, Text.byteLength_cons, Text.byteLength_reverse]
        omega
    case isFalse other =>
      have inside' : ∀ e ∈ d :: folder, isSeparator e = false :=
        List.forall_mem_cons.mpr ⟨by simpa using other, inside⟩
      have ⟨before, name, after, cut, rest⟩ := ih inside' h fun e he => inside' e (List.mem_reverse.mp he)
      exact ⟨before, name, after, by simpa using cut, rest⟩

-- Where nothing is found, no folder names a framework.
theorem isMoniker_eq_false_of_findFrom (inside : ∀ d ∈ folder, isSeparator d = false)
    (h : findFrom start folder cs = none) : ∀ f ∈ folders (folder.reverse ++ cs), isMoniker f = false := by
  have reverse : ∀ d ∈ folder.reverse, isSeparator d = false := by simpa using inside
  induction cs generalizing folder start with
  | nil =>
    unfold findFrom at h
    split at h
    case isTrue => cases h
    case isFalse unnamed =>
      rw [List.append_nil, folders_eq_singleton reverse]
      simpa using unnamed
  | cons d cs ih =>
    unfold findFrom at h
    split at h
    case isTrue separator =>
      split at h
      case isTrue => cases h
      case isFalse unnamed =>
        rw [folders_append_separator reverse separator]
        exact List.forall_mem_cons.mpr ⟨by simpa using unnamed, ih (by simp) h (by simp)⟩
    case isFalse other =>
      have inside' : ∀ e ∈ d :: folder, isSeparator e = false :=
        List.forall_mem_cons.mpr ⟨by simpa using other, inside⟩
      simpa using ih inside' h fun e he => inside' e (List.mem_reverse.mp he)

-- The characters of a folder.
theorem IsFolder.mem (h : IsFolder name) {d : Char} (hd : d ∈ name) :
    d.isAlpha ∨ Text.isDecimalDigit d ∨ d = '.' := by
  obtain ⟨ds, es, rfl, _, _, digits, digits'⟩ := isMoniker_iff.mp h.isMoniker
  simp only [List.mem_cons, List.mem_append] at hd
  obtain rfl | rfl | rfl | hd | rfl | hd := hd
  case inr.inr.inr.inl => exact .inr (.inl (digits d hd))
  case inr.inr.inr.inr.inl => exact .inr (.inr rfl)
  case inr.inr.inr.inr.inr => exact .inr (.inl (digits' d hd))
  all_goals exact .inl (by decide)

theorem IsFolder.not_mem (h : IsFolder name) {d : Char} (alpha : d.isAlpha = false)
    (digit : Text.isDecimalDigit d = false) (dot : d ≠ '.') : d ∉ name := by
  intro hd
  have := h.mem hd
  simp_all

theorem IsFolder.isBlank_eq (h : IsFolder name) : ∀ d ∈ name, Text.isBlank d = false := by
  intro d hd
  obtain alpha | digit | rfl := h.mem hd
  · exact Text.isBlank_of_isAlphanum (by simp [Char.isAlphanum, alpha])
  · exact Text.isBlank_of_isDecimalDigit digit
  · decide

theorem isFolder_forChannel (c : Channel) : IsFolder (Moniker.forChannel c none).toList := by
  have digits (n : UInt64) : ∀ d ∈ (Text.writeNumber n).toList, Text.isDecimalDigit d :=
    fun d hd => Text.isDecimalDigit_of_isDigit (Text.isDigit_of_mem_writeNumber hd)
  have separators (n : UInt64) : ∀ d ∈ (Text.writeNumber n).toList, isSeparator d = false := by
    intro d hd
    have digit := Text.isDigit_of_mem_writeNumber hd
    cases hs : isSeparator d
    case false => rfl
    case true =>
      simp only [isSeparator, Bool.or_eq_true, beq_iff_eq] at hs
      obtain rfl | rfl := hs <;> cases digit
  rw [Moniker.toList_forChannel, Moniker.platformText, List.append_nil]
  constructor
  case isMoniker =>
    exact isMoniker_iff.mpr ⟨_, _, rfl, Text.writeNumber_ne_nil, Text.writeNumber_ne_nil, digits _, digits _⟩
  case inside =>
    intro d hd
    simp only [List.mem_cons, List.mem_append] at hd
    obtain rfl | rfl | rfl | hd | rfl | hd := hd
    case inr.inr.inr.inl => exact separators _ d hd
    case inr.inr.inr.inr.inr => exact separators _ d hd
    all_goals decide

end MonikerPath
end Repin
