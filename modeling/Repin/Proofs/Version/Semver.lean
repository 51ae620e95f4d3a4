import Repin.Proofs.Except
import Repin.Proofs.Text.Decimal
import Repin.Proofs.Text.Split
import Repin.Version.Semver
/-!
# Reading what was written

A written version is cut at its first `+`, then at its first `-`, then at the dots, and each part is
read back. Main statement: `Semver.read_render`.
-/
namespace Repin

variable {α β : Type} {c : Char}

theorem mapM_map_eq_some {f : α → β} {g : β → Option α} {xs : List α}
    (h : ∀ x ∈ xs, g (f x) = some x) : (xs.map f).mapM g = some xs := by
  rw [mapM_eq_some_iff, List.forall₂_map_left_iff]
  exact List.forall₂_same.mpr h

theorem isLabelChar_of_isDigit (h : c.isDigit) : isLabelChar c := by
  simp [isLabelChar, Char.isAlphanum, h]

namespace PreLabel

variable {l : PreLabel} {labels : List PreLabel}

theorem isLabelChar_of_mem_render (h : c ∈ l.render.toList) : isLabelChar c := by
  cases l
  case numeric n => exact isLabelChar_of_isDigit (Text.isDigit_of_mem_writeNumber h)
  case alpha text isAlpha => exact List.all_eq_true.mp isAlpha.left c h

theorem not_mem_render (h : isLabelChar c = false) : c ∉ l.render.toList := by
  intro hm
  have := isLabelChar_of_mem_render hm
  simp [h] at this

theorem parse?_render (l : PreLabel) : parse? l.render.toList = some l := by
  cases l
  case numeric n =>
    have digits : (Text.writeNumber n).toList.all Char.isDigit :=
      List.all_eq_true.mpr fun _ hc => Text.isDigit_of_mem_writeNumber hc
    simp [parse?, render, digits, Text.readNumber_writeNumber]
  case alpha text isAlpha =>
    have digits : text.toList.all Char.isDigit = false := by simpa using isAlpha.right
    simp only [parse?, render, digits, String.ofList_toList]
    simp [isAlpha]

-- The labels of a version, as they stand behind its `-`.
def written (labels : List PreLabel) : List Char :=
  ['.'].intercalate (labels.map fun l => l.render.toList)

theorem splitAt_written (h : labels ≠ []) :
    Text.splitAt '.' (written labels) = labels.map fun l => l.render.toList := by
  apply Text.splitAt_intercalate
  case ne => simpa using h
  case h =>
    intro piece hp
    obtain ⟨l, _, rfl⟩ := List.mem_map.mp hp
    exact not_mem_render (by decide)

theorem isLabelChar_or_dot_of_mem_written (h : c ∈ written labels) : isLabelChar c ∨ c = '.' := by
  induction labels with
  | nil => simp [written] at h
  | cons l labels ih =>
    cases labels with
    | nil =>
      simp [written] at h
      exact .inl (isLabelChar_of_mem_render h)
    | cons m labels =>
      simp only [written, List.map_cons, List.intercalate_cons_cons, List.mem_append,
        List.mem_singleton] at h ih
      obtain (h | h) | h := h
      · exact .inl (isLabelChar_of_mem_render h)
      · exact .inr h
      · exact ih h

end PreLabel

namespace Semver

variable {v : Semver}

-- The three numbers of a version.
def coreText (v : Semver) : List Char :=
  (Text.writeNumber v.major).toList ++ '.' :: ((Text.writeNumber v.minor).toList ++
    '.' :: (Text.writeNumber v.patch).toList)

def labelText (v : Semver) : List Char :=
  if v.prerelease.isEmpty then [] else '-' :: PreLabel.written v.prerelease

def buildText (v : Semver) : List Char :=
  match v.build with
  | some build => '+' :: build.text.toList
  | none => []

theorem toList_render (v : Semver) : v.render.toList = v.coreText ++ v.labelText ++ v.buildText := by
  cases hb : v.build <;> cases hp : v.prerelease <;>
    simp [render, coreText, labelText, buildText, PreLabel.written, hb, hp, Function.comp_def]

theorem isDigit_or_dot_of_mem_coreText (h : c ∈ v.coreText) : c.isDigit ∨ c = '.' := by
  simp only [coreText, List.mem_append, List.mem_cons] at h
  obtain h | h | h | h | h := h
  · exact .inl (Text.isDigit_of_mem_writeNumber h)
  · exact .inr h
  · exact .inl (Text.isDigit_of_mem_writeNumber h)
  · exact .inr h
  · exact .inl (Text.isDigit_of_mem_writeNumber h)

theorem not_mem_coreText (hd : c.isDigit = false) (hc : c ≠ '.') : c ∉ v.coreText := by
  intro h
  cases isDigit_or_dot_of_mem_coreText h
  case inl h => simp [hd] at h
  case inr h => exact hc h

theorem plus_not_mem_labelText : '+' ∉ v.labelText := by
  intro h
  unfold labelText at h
  split at h
  case isTrue => cases h
  case isFalse =>
    cases List.mem_cons.mp h
    case inl h => simp at h
    case inr h =>
      cases PreLabel.isLabelChar_or_dot_of_mem_written h
      case inl h => exact absurd h (by decide)
      case inr h => simp at h

theorem isLabelChar_or_dot_of_isBuildText {text : String} (h : IsBuildText text)
    (hc : c ∈ text.toList) : isLabelChar c ∨ c = '.' := by
  by_cases dot : c = '.'
  case pos => exact .inr dot
  case neg =>
    have ⟨piece, hp, hm⟩ := Text.exists_mem_splitAt hc dot
    have label := List.all_eq_true.mp h piece hp
    simp only [Bool.and_eq_true, List.all_eq_true] at label
    exact .inl (label.right c hm)

-- A written version is made of these characters alone.
theorem mem_render (h : c ∈ v.render.toList) : isLabelChar c ∨ c = '.' ∨ c = '+' := by
  simp only [toList_render, List.mem_append] at h
  obtain (h | h) | h := h
  case inl.inl =>
    cases isDigit_or_dot_of_mem_coreText h
    case inl h => exact .inl (isLabelChar_of_isDigit h)
    case inr h => exact .inr (.inl h)
  case inl.inr =>
    unfold labelText at h
    split at h
    case isTrue => cases h
    case isFalse =>
      obtain rfl | h := List.mem_cons.mp h
      · exact .inl (by decide)
      · cases PreLabel.isLabelChar_or_dot_of_mem_written h
        case inl h => exact .inl h
        case inr h => exact .inr (.inl h)
  case inr =>
    unfold buildText at h
    split at h
    case h_2 => cases h
    case h_1 build _ =>
      obtain rfl | h := List.mem_cons.mp h
      · exact .inr (.inr rfl)
      · cases isLabelChar_or_dot_of_isBuildText build.isBuildText h
        case inl h => exact .inl h
        case inr h => exact .inr (.inl h)

theorem not_mem_render (h : isLabelChar c = false) (dot : c ≠ '.') (plus : c ≠ '+') :
    c ∉ v.render.toList := by
  intro hm
  obtain hm | hm | hm := mem_render hm
  · simp [h] at hm
  · exact dot hm
  · exact plus hm

theorem readBuild_render (v : Semver) :
    readBuild v.render.toList = .ok (v.coreText ++ v.labelText, v.build) := by
  have plus : '+' ∉ v.coreText ++ v.labelText := by
    simp only [List.mem_append, not_or]
    exact ⟨not_mem_coreText (by decide) (by decide), plus_not_mem_labelText⟩
  rw [toList_render, readBuild]
  cases hb : v.build
  case none => simp [buildText, hb, Text.splitOnce_eq_none, plus]
  case some build =>
    rw [buildText, hb, Text.splitOnce_append plus]
    simp [build.isBuildText]

theorem splitOnce_release (h : v.prerelease = []) :
    Text.splitOnce '-' (v.coreText ++ v.labelText) = none := by
  simp [labelText, h, Text.splitOnce_eq_none, not_mem_coreText]

-- The `-` of the labels is the first one, since the numbers have none.
theorem splitOnce_prerelease (h : v.prerelease ≠ []) :
    Text.splitOnce '-' (v.coreText ++ v.labelText)
      = some (v.coreText, PreLabel.written v.prerelease) := by
  have hyphen : '-' ∉ v.coreText := not_mem_coreText (by decide) (by decide)
  simp [labelText, h, Text.splitOnce_append hyphen]

theorem splitAt_coreText (v : Semver) :
    Text.splitAt '.' v.coreText = [(Text.writeNumber v.major).toList,
      (Text.writeNumber v.minor).toList, (Text.writeNumber v.patch).toList] := by
  have dot (n : UInt64) : '.' ∉ (Text.writeNumber n).toList := Text.not_mem_writeNumber (by decide)
  rw [coreText, Text.splitAt_append_separator (dot _), Text.splitAt_append_separator (dot _),
    Text.splitAt_eq_singleton (dot _)]

theorem readPart_writeNumber (part : CorePart) (n : UInt64) (pieces : List (List Char)) :
    readPart part ((Text.writeNumber n).toList :: pieces) = .ok (n, pieces) := by
  simp [readPart, Text.readShortest_writeNumber]

theorem readLabel?_render (l : PreLabel) : readLabel? l.render.toList = some l := by
  have parsed := PreLabel.parse?_render l
  unfold readLabel?
  split
  case h_2 => exact parsed
  case h_1 d ds hs =>
    cases l
    case alpha text isAlpha =>
      have digits : text.toList.all Char.isDigit = false := by simpa using isAlpha.right
      simp only [PreLabel.render] at hs parsed ⊢
      simp [digits, parsed]
    case numeric n =>
      -- a written number has no leading zero in front of further digits
      have shortest := Text.readShortest_writeNumber n
      simp only [PreLabel.render] at hs
      simp [hs, Text.readShortest] at shortest

theorem readLabels_written {labels : List PreLabel} (h : labels ≠ []) :
    readLabels (some (PreLabel.written labels)) = .ok labels := by
  have read : (labels.map fun l => l.render.toList).mapM readLabel? = some labels :=
    mapM_map_eq_some fun l _ => readLabel?_render l
  simp [readLabels, PreLabel.splitAt_written h, read]

theorem read_render (v : Semver) : read v.render.toList = .ok v := by
  have core := splitAt_coreText v
  unfold read
  rw [readBuild_render]
  by_cases h : v.prerelease = []
  case pos =>
    have text : v.coreText ++ v.labelText = v.coreText := by simp [labelText, h]
    have parts := splitOnce_release h
    rw [text] at parts ⊢
    simp [bind, Except.bind, parts, core, readPart_writeNumber, readLabels, ← h, pure, Except.pure]
  case neg =>
    simp [bind, Except.bind, splitOnce_prerelease h, core, readPart_writeNumber,
      readLabels_written h, pure, Except.pure]

-- What was written is read back.
theorem parse_eq_of_render (v : Semver) : parse v.render = .ok v := by
  rw [parse, read_render]
  rfl

end Semver
end Repin
