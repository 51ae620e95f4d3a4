import Mathlib.Data.Set.List
import Repin.Proofs.Version.Semver
/-!
# The grammar of semantic versions

The rules of SemVer 2.0.0 are stated without the reader: three numbers between dots, labels behind a
`-`, and build metadata behind a `+`. All numbers stay below 2^64. The reader reads exactly the texts of
the grammar, and each as the version that is written so.

Main statement: `Semver.parse_iff_grammar`.
-/
namespace Repin

variable {cs : List Char}

namespace Semver.Grammar

-- Zero, or digits of which the first is positive.
inductive Numeral : List Char → Prop where
  | zero : Numeral ['0']
  | positive {d : Char} {ds : List Char} :
    d.isDigit → d ≠ '0' → (∀ e ∈ ds, e.isDigit) → Numeral (d :: ds)

structure Number (cs : List Char) : Prop where
  numeral : Numeral cs
  fits : Nat.ofDigitChars 10 cs 0 < UInt64.size

-- Letters, digits and hyphens.
structure Identifier (cs : List Char) : Prop where
  ne_nil : cs ≠ []
  chars : ∀ c ∈ cs, c.isAlphanum ∨ c = '-'

-- An identifier of digits alone is a label only as a number.
inductive Label : List Char → Prop where
  | number {cs : List Char} : Number cs → Label cs
  | alphanumeric {cs : List Char} : Identifier cs → (∃ c ∈ cs, ¬ c.isDigit) → Label cs

-- Texts of one kind with dots between them.
inductive Dotted (Part : List Char → Prop) : List Char → Prop where
  | single {part : List Char} : Part part → Dotted Part part
  | cons {part rest : List Char} : Part part → Dotted Part rest → Dotted Part (part ++ '.' :: rest)

inductive Core : List Char → Prop where
  | numbers {major minor patch : List Char} : Number major → Number minor → Number patch →
    Core (major ++ '.' :: (minor ++ '.' :: patch))

inductive Version : List Char → Prop where
  | release {core : List Char} : Core core → Version core
  | prerelease {core labels : List Char} :
    Core core → Dotted Label labels → Version (core ++ '-' :: labels)
  | build {core build : List Char} :
    Core core → Dotted Identifier build → Version (core ++ '+' :: build)
  | prereleaseBuild {core labels build : List Char} :
    Core core → Dotted Label labels → Dotted Identifier build →
      Version (core ++ '-' :: labels ++ '+' :: build)

/-! What is written for each rule -/

theorem number_iff : Number cs ↔ ∃ n, (Text.writeNumber n).toList = cs := by
  constructor
  case mp =>
    rintro ⟨numeral, fits⟩
    refine ⟨UInt64.ofNatLT _ fits, ?_⟩
    rw [Text.toList_writeNumber, UInt64.toNat_ofNatLT]
    cases numeral with
    | zero => rfl
    | positive digit positive digits =>
      apply Text.toDigits_ofDigitChars (by simp) (List.forall_mem_cons.mpr ⟨digit, digits⟩)
      exact fun head => absurd (Option.some.inj head) positive
  case mpr =>
    rintro ⟨n, rfl⟩
    have ⟨ne, digits, value⟩ := Text.readNumber_eq_some_iff.mp (Text.readNumber_writeNumber n)
    refine ⟨?numeral, value ▸ n.toNat_lt⟩
    have shortest := Text.readShortest_writeNumber n
    generalize (Text.writeNumber n).toList = cs at ne digits shortest
    cases cs with
    | nil => contradiction
    | cons d ds =>
      have ⟨digit, digits⟩ := List.forall_mem_cons.mp digits
      by_cases zero : d = '0'
      case neg => exact .positive digit zero digits
      case pos =>
        subst zero
        cases ds with
        | nil => exact .zero
        | cons => cases shortest

-- What parts are made of holds no dot, so that the pieces between the dots are the parts.
theorem dotted_iff {Part : List Char → Prop} (outside : ∀ part, Part part → '.' ∉ part) :
    Dotted Part cs ↔ ∀ piece ∈ Text.splitAt '.' cs, Part piece := by
  constructor
  case mp =>
    intro h
    induction h with
    | single part => simpa [Text.splitAt_eq_singleton (outside _ part)] using part
    | cons part _ ih =>
      rw [Text.splitAt_append_separator (outside _ part)]
      exact List.forall_mem_cons.mpr ⟨part, ih⟩
  case mpr =>
    rw [← Text.intercalate_splitAt '.' cs]
    have ne : Text.splitAt '.' cs ≠ [] := Text.splitOn_ne_nil _ cs
    rw [Text.splitAt_intercalate ne fun _ => Text.not_mem_of_mem_splitAt]
    generalize Text.splitAt '.' cs = pieces at ne
    intro parts
    induction pieces with
    | nil => contradiction
    | cons piece pieces ih =>
      have ⟨part, rest⟩ := List.forall_mem_cons.mp parts
      cases pieces with
      | nil => simpa using Dotted.single part
      | cons => simpa using Dotted.cons part (ih (by simp) rest)

theorem label_iff : Label cs ↔ ∃ l : PreLabel, l.render.toList = cs := by
  constructor
  case mp =>
    intro h
    cases h with
    | number number =>
      have ⟨n, written⟩ := number_iff.mp number
      exact ⟨.numeric n, written⟩
    | alphanumeric identifier other =>
      have isAlpha : IsAlphaLabel (String.ofList cs) :=
        ⟨by simpa [isLabelChar] using identifier.chars, by simpa using other⟩
      exact ⟨.alpha _ isAlpha, String.toList_ofList⟩
  case mpr =>
    rintro ⟨l, rfl⟩
    cases l with
    | numeric n => exact .number (number_iff.mpr ⟨n, rfl⟩)
    | alpha text isAlpha =>
      obtain ⟨c, hc, other⟩ : ∃ c ∈ text.toList, ¬ c.isDigit := by
        simpa using isAlpha.right
      have chars : ∀ d ∈ text.toList, d.isAlphanum ∨ d = '-' := by
        simpa [isLabelChar] using isAlpha.left
      exact .alphanumeric ⟨List.ne_nil_of_mem hc, chars⟩ ⟨c, hc, other⟩

theorem identifier_iff : Identifier cs ↔ cs ≠ [] ∧ cs.all isLabelChar := by
  constructor
  case mp => exact fun h => ⟨h.ne_nil, by simpa [isLabelChar] using h.chars⟩
  case mpr => exact fun h => ⟨h.left, by simpa [isLabelChar] using h.right⟩

theorem dot_not_mem_of_identifier (h : Identifier cs) : '.' ∉ cs :=
  fun hm => absurd (h.chars _ hm) (by decide)

theorem dot_not_mem_of_label (h : Label cs) : '.' ∉ cs := by
  obtain ⟨l, rfl⟩ := label_iff.mp h
  exact PreLabel.not_mem_render (by decide)

theorem build_iff : Dotted Identifier cs ↔ IsBuildText (String.ofList cs) := by
  rw [dotted_iff fun _ => dot_not_mem_of_identifier]
  simp [identifier_iff, IsBuildText]

theorem labels_iff :
    Dotted Label cs ↔ ∃ labels : List PreLabel, labels ≠ [] ∧ PreLabel.written labels = cs := by
  rw [dotted_iff fun _ => dot_not_mem_of_label]
  simp only [label_iff]
  constructor
  case mp =>
    intro written
    obtain ⟨labels, pieces⟩ : Text.splitAt '.' cs ∈
        Set.range (List.map fun l : PreLabel => l.render.toList) := by
      rw [Set.range_list_map]
      exact written
    refine ⟨labels, ?_, by rw [PreLabel.written, pieces, Text.intercalate_splitAt]⟩
    rintro rfl
    exact Text.splitOn_ne_nil _ _ pieces.symm
  case mpr =>
    rintro ⟨labels, ne, rfl⟩ piece hp
    rw [PreLabel.splitAt_written ne] at hp
    obtain ⟨l, _, written⟩ := List.mem_map.mp hp
    exact ⟨l, written⟩

theorem core_iff : Core cs ↔ ∃ major minor patch, (release major minor patch).coreText = cs := by
  constructor
  case mp =>
    rintro ⟨hmajor, hminor, hpatch⟩
    obtain ⟨major, rfl⟩ := number_iff.mp hmajor
    obtain ⟨minor, rfl⟩ := number_iff.mp hminor
    obtain ⟨patch, rfl⟩ := number_iff.mp hpatch
    exact ⟨major, minor, patch, rfl⟩
  case mpr =>
    rintro ⟨major, minor, patch, rfl⟩
    exact .numbers (number_iff.mpr ⟨_, rfl⟩) (number_iff.mpr ⟨_, rfl⟩) (number_iff.mpr ⟨_, rfl⟩)

-- The texts of the grammar are the written versions.
theorem version_iff : Version cs ↔ ∃ v : Semver, v.render.toList = cs := by
  simp only [toList_render]
  constructor
  case mp =>
    intro h
    cases h with
    | release hc =>
      obtain ⟨major, minor, patch, rfl⟩ := core_iff.mp hc
      exact ⟨⟨major, minor, patch, [], none⟩, by simp [labelText, buildText, coreText, release]⟩
    | prerelease hc hl =>
      obtain ⟨major, minor, patch, rfl⟩ := core_iff.mp hc
      obtain ⟨labels, ne, rfl⟩ := labels_iff.mp hl
      exact ⟨⟨major, minor, patch, labels, none⟩, by simp [labelText, buildText, coreText, release, ne]⟩
    | build hc hb =>
      obtain ⟨major, minor, patch, rfl⟩ := core_iff.mp hc
      exact ⟨⟨major, minor, patch, [], some ⟨_, build_iff.mp hb⟩⟩,
        by simp [labelText, buildText, coreText, release]⟩
    | prereleaseBuild hc hl hb =>
      obtain ⟨major, minor, patch, rfl⟩ := core_iff.mp hc
      obtain ⟨labels, ne, rfl⟩ := labels_iff.mp hl
      exact ⟨⟨major, minor, patch, labels, some ⟨_, build_iff.mp hb⟩⟩,
        by simp [labelText, buildText, coreText, release, ne]⟩
  case mpr =>
    rintro ⟨v, rfl⟩
    have core : Core v.coreText := core_iff.mpr ⟨v.major, v.minor, v.patch, rfl⟩
    have labels (ne : v.prerelease ≠ []) : Dotted Label (PreLabel.written v.prerelease) :=
      labels_iff.mpr ⟨_, ne, rfl⟩
    have build (b : BuildMetadata) : Dotted Identifier b.text.toList :=
      build_iff.mpr (by simpa using b.isBuildText)
    by_cases hp : v.prerelease = [] <;> cases hb : v.build
    case pos.none => simpa [labelText, buildText, hp, hb] using Version.release core
    case pos.some b => simpa [labelText, buildText, hp, hb] using Version.build core (build b)
    case neg.none => simpa [labelText, buildText, hp, hb] using Version.prerelease core (labels hp)
    case neg.some b =>
      simpa [labelText, buildText, hp, hb] using Version.prereleaseBuild core (labels hp) (build b)

end Semver.Grammar

namespace Semver

variable {v : Semver}

/-! Reading is exact -/

theorem readBuild_eq_ok {rest : List Char} (h : readBuild cs = .ok (rest, v.build)) :
    rest ++ v.buildText = cs := by
  unfold readBuild at h
  split at h
  case h_1 =>
    obtain ⟨rfl, hb⟩ := Prod.mk.inj (Except.ok.inj h)
    rw [buildText, ← hb, List.append_nil]
  case h_2 before build hs =>
    dsimp only at h
    split at h
    case isFalse => cases h
    case isTrue =>
      obtain ⟨rfl, hb⟩ := Prod.mk.inj (Except.ok.inj h)
      rw [buildText, ← hb, (Text.splitOnce_eq_some_iff.mp hs).left]
      simp

theorem readPart_eq_ok {part : CorePart} {n : UInt64} {pieces rest : List (List Char)}
    (h : readPart part pieces = .ok (n, rest)) : pieces = (Text.writeNumber n).toList :: rest := by
  unfold readPart at h
  split at h
  case h_1 => cases h
  case h_2 piece others =>
    split at h
    case h_2 => cases h
    case h_1 number =>
      cases h
      rw [Text.readShortest_eq_some_iff.mp number]

theorem readLabel?_eq_some_iff {l : PreLabel} : readLabel? cs = some l ↔ l.render.toList = cs := by
  constructor
  case mpr =>
    rintro rfl
    exact readLabel?_render l
  case mp =>
    intro h
    have parsed : PreLabel.parse? cs = some l := by
      unfold readLabel? at h
      split at h
      case h_2 => exact h
      case h_1 =>
        split at h
        case isTrue => cases h
        case isFalse => exact h
    unfold PreLabel.parse? at parsed
    dsimp only at parsed
    split at parsed
    case isTrue digits =>
      obtain ⟨n, number, rfl⟩ := Option.map_eq_some_iff.mp parsed
      apply Text.readShortest_eq_some_iff.mp
      unfold Text.readShortest
      split
      case h_2 => exact number
      case h_1 => simp [readLabel?, digits] at h
    case isFalse =>
      split at parsed
      case isFalse => cases parsed
      case isTrue =>
        cases parsed
        exact String.toList_ofList

theorem readLabels_eq_ok {labels : List PreLabel} (h : readLabels (some cs) = .ok labels) :
    labels ≠ [] ∧ PreLabel.written labels = cs := by
  unfold readLabels at h
  dsimp only at h
  split at h
  case h_2 => cases h
  case h_1 read =>
    cases h
    have pieces := mapM_eq_some_iff.mp read
    simp only [readLabel?_eq_some_iff] at pieces
    have texts : labels.map (fun l => l.render.toList) = Text.splitAt '.' cs :=
      List.forall₂_eq_eq_eq ▸ List.forall₂_map_left_iff.mpr pieces.flip
    constructor
    case left =>
      rintro rfl
      exact Text.splitOn_ne_nil _ _ texts.symm
    case right => rw [PreLabel.written, texts, Text.intercalate_splitAt]

theorem labelText_eq {labels : Option (List Char)} (h : readLabels labels = .ok v.prerelease) :
    v.labelText = (labels.map ('-' :: ·)).getD [] := by
  cases labels with
  | none =>
    have none : v.prerelease = [] := (Except.ok.inj h).symm
    simp [labelText, none]
  | some cs =>
    obtain ⟨ne, rfl⟩ := readLabels_eq_ok h
    simp [labelText, ne]

-- Reads the numbers and the labels of a version, given its build metadata.
def readParts (build : Option BuildMetadata) (core : List Char) (labels : Option (List Char)) :
    Except Reason Semver := do
  let (major, pieces) ← readPart .major (Text.splitAt '.' core)
  let (minor, pieces) ← readPart .minor pieces
  let (patch, pieces) ← readPart .patch pieces
  unless pieces.isEmpty do
    throw .tooManyParts
  let prerelease ← readLabels labels
  return { major, minor, patch, prerelease, build }

theorem read_eq (cs : List Char) : read cs = readBuild cs >>= fun (rest, build) =>
    match Text.splitOnce '-' rest with
    | some (core, labels) => readParts build core (some labels)
    | none => readParts build rest none := by
  unfold read
  congr
  funext ⟨rest, build⟩
  dsimp only
  cases Text.splitOnce '-' rest <;> rfl

theorem readParts_eq_ok {build : Option BuildMetadata} {core : List Char}
    {labels : Option (List Char)} (h : readParts build core labels = .ok v) :
    v.coreText ++ v.labelText = core ++ (labels.map ('-' :: ·)).getD [] ∧ v.build = build := by
  unfold readParts at h
  obtain ⟨⟨major, minors⟩, hmajor, h⟩ := bind_eq_ok.mp h
  obtain ⟨⟨minor, patches⟩, hminor, h⟩ := bind_eq_ok.mp h
  obtain ⟨⟨patch, more⟩, hpatch, h⟩ := bind_eq_ok.mp h
  dsimp only at hminor hpatch h
  split at h
  case isFalse => cases h
  case isTrue last =>
    obtain ⟨prerelease, hl, h⟩ := bind_eq_ok.mp h
    cases h
    have pieces := readPart_eq_ok hmajor
    rw [readPart_eq_ok hminor, readPart_eq_ok hpatch, List.isEmpty_iff.mp last] at pieces
    rw [labelText_eq hl, ← Text.intercalate_splitAt '.' core, pieces]
    simp [coreText]

-- Nothing of a text that is read is left out of the version.
theorem render_of_read (h : read cs = .ok v) : v.render.toList = cs := by
  rw [read_eq] at h
  obtain ⟨⟨rest, build⟩, hb, h⟩ := bind_eq_ok.mp h
  dsimp only at h
  rw [toList_render]
  split at h
  case h_1 core labels hs =>
    obtain ⟨text, rfl⟩ := readParts_eq_ok h
    rw [text, Option.map_some, Option.getD_some, ← (Text.splitOnce_eq_some_iff.mp hs).left,
      readBuild_eq_ok hb]
  case h_2 =>
    obtain ⟨text, rfl⟩ := readParts_eq_ok h
    rw [text, Option.map_none, Option.getD_none, List.append_nil, readBuild_eq_ok hb]

theorem parse_eq_ok_iff {text : String} : parse text = .ok v ↔ v.render = text := by
  constructor
  case mp => exact fun h => String.toList_inj.mp (render_of_read (mapError_eq_ok.mp h))
  case mpr =>
    rintro rfl
    exact parse_eq_of_render v

-- A text is read if and only if it is one of the grammar, and then as the version that is written so.
theorem parse_iff_grammar :
    (∀ text, (∃ v, parse text = .ok v) ↔ Grammar.Version text.toList) ∧
      (∀ text v, parse text = .ok v ↔ v.render = text) ∧ ∀ v : Semver, parse v.render = .ok v := by
  refine ⟨fun text => ?accepted, fun text v => parse_eq_ok_iff, parse_eq_of_render⟩
  case accepted => simp only [parse_eq_ok_iff, Grammar.version_iff, String.toList_inj]

end Semver
end Repin
