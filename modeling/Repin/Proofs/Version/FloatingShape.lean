import Repin.Proofs.Version.Floating
/-!
# The shape of an expression

What is written for a channel is read as an expression of the same shape with the numbers of the
channel, as long as the SDK of the channel has no build metadata: no expression has any.

Main statement: `FloatingExpr.read_upgraded`.
-/
namespace Repin

variable {c : Channel} {cs : List Char}

theorem Wildcard.read?_eq_none (h : cs.length ≠ 1) : read? cs = none := by
  unfold read?
  split
  case h_4 => rfl
  all_goals exact absurd rfl h

namespace FloatingExpr

variable {e e' : FloatingExpr}

-- An expression with the numbers of a channel in its own shape.
def moved (c : Channel) : FloatingExpr → FloatingExpr
  | major _ => major c.major
  | anyMinor _ w => anyMinor c.major w
  | minor _ _ => minor c.major c.minor
  | anyPatch _ _ w => anyPatch c.major c.minor w
  | band _ _ _ suffix => band c.major c.minor c.bandNumber suffix
  | full .. => full c.major c.minor c.sdk.patch c.sdk.prerelease

theorem read_of_not_mem (h : '-' ∉ cs) : read cs = readCore cs := by
  unfold read
  rw [Text.splitOnce_eq_none h]
  cases hr : readCore cs <;> simp [hr, bind, Except.bind, addLabels]

theorem readBand_append {digits : List Char} {n : UInt64} (s : BandSuffix)
    (h : Text.readNumber digits = some n) : readBand (digits ++ s.text.toList) = .ok (n, s) := by
  have width : Text.byteLength s.text.toList = 2 := by cases s <;> rfl
  have suffix : BandSuffix.read? s.text.toList = some s := by cases s <;> rfl
  have behind : Text.byteLength digits + 2 - 2 = Text.byteLength digits := by omega
  unfold readBand
  simp [width, behind, Text.splitAtByte_append, suffix, h]

-- A band is neither a number nor a wildcard.
theorem readNumber_band (n : UInt64) (s : BandSuffix) :
    Text.readNumber ((Text.writeNumber n).toList ++ s.text.toList) = none := by
  cases s
  case lower => exact Text.readNumber_eq_none (c := 'x') (by simp [BandSuffix.text]) (by decide)
  case upper => exact Text.readNumber_eq_none (c := 'X') (by simp [BandSuffix.text]) (by decide)

theorem readWildcard_band (n : UInt64) (s : BandSuffix) :
    Wildcard.read? ((Text.writeNumber n).toList ++ s.text.toList) = none := by
  apply Wildcard.read?_eq_none
  have first := List.length_pos_iff.mpr (Text.writeNumber_ne_nil (n := n))
  have width : s.text.toList.length = 2 := by cases s <;> rfl
  rw [List.length_append, width]
  omega

-- The three segments of a text that starts with the numbers of a channel.
theorem splitAt_render {third : List Char} (h : '.' ∉ third) :
    Text.splitAt '.' (c.render.toList ++ '.' :: third)
      = [(Text.writeNumber c.major).toList, (Text.writeNumber c.minor).toList, third] := by
  have dot (n : UInt64) : '.' ∉ (Text.writeNumber n).toList := Text.not_mem_writeNumber (by decide)
  rw [Channel.toList_render, List.append_assoc, List.cons_append,
    Text.splitAt_append_separator (dot _), Text.splitAt_append_separator (dot _),
    Text.splitAt_eq_singleton h]

theorem readCore_patch (v : Semver) :
    readCore v.coreText = .ok (.full v.major v.minor v.patch []) := by
  simp [readCore, Semver.splitAt_coreText, readSegment, Text.readNumber_writeNumber, bind,
    Except.bind, pure, Except.pure]

theorem read_release (v : Semver) : read (v.coreText ++ v.labelText)
    = .ok (.full v.major v.minor v.patch v.prerelease) := by
  by_cases h : v.prerelease = []
  case pos =>
    have hyphen : '-' ∉ v.coreText := Semver.not_mem_coreText (by decide) (by decide)
    rw [Semver.labelText, h, List.isEmpty_nil, if_pos rfl, List.append_nil, read_of_not_mem hyphen,
      readCore_patch]
  case neg =>
    have labels : (Text.splitAt '.' (PreLabel.written v.prerelease)).mapM PreLabel.parse?
        = some v.prerelease := by
      rw [PreLabel.splitAt_written h]
      exact mapM_map_eq_some fun l _ => l.parse?_render
    simp [read, Semver.splitOnce_prerelease h, readCore_patch, bind, Except.bind, addLabels, labels]

-- Only a full version has labels.
theorem not_mem_upgraded_of_ne_full {d : Char} (h : ∀ m n p labels, e ≠ .full m n p labels)
    (digit : d.isDigit = false) (outside : d ∉ ['.', '*', 'x', 'X']) :
    d ∉ (e.upgraded c).toList := by
  have number (n : UInt64) : d ∉ (Text.writeNumber n).toList := Text.not_mem_writeNumber digit
  simp only [List.mem_cons, List.not_mem_nil, or_false, not_or] at outside
  cases e
  case full => exact (h _ _ _ _ rfl).elim
  case anyMinor m w => cases w <;> simp [upgraded, number, outside, Wildcard.text]
  case anyPatch m n w =>
    cases w <;> simp [upgraded, number, outside, Channel.toList_render, Wildcard.text]
  case band m n b s =>
    cases s <;> simp [upgraded, number, outside, Channel.toList_render, BandSuffix.text]
  all_goals simp [upgraded, number, outside, Channel.toList_render]

theorem not_mem_upgraded {d : Char} (label : isLabelChar d = false) (dot : d ≠ '.') (plus : d ≠ '+')
    (star : d ≠ '*') : d ∉ (e.upgraded c).toList := by
  have digit : d.isDigit = false := by
    cases hd : d.isDigit with
    | false => rfl
    | true => simp [isLabelChar_of_isDigit hd] at label
  have x : d ≠ 'x' ∧ d ≠ 'X' := by
    constructor <;> rintro rfl <;> exact absurd label (by decide)
  cases e
  case full => exact Semver.not_mem_render label dot plus
  all_goals exact not_mem_upgraded_of_ne_full (by simp) digit (by simp [dot, star, x])

-- What is written for a channel is read as an expression of the same shape.
theorem read_upgraded (h : c.sdk.build = none) (e : FloatingExpr) :
    read (e.upgraded c).toList = .ok (e.moved c) := by
  have dot (n : UInt64) : '.' ∉ (Text.writeNumber n).toList := Text.not_mem_writeNumber (by decide)
  cases e
  case full =>
    simp only [upgraded, Semver.toList_render, Semver.buildText, h, List.append_nil]
    exact read_release c.sdk
  all_goals
    rw [read_of_not_mem (not_mem_upgraded_of_ne_full (by simp) (by decide) (by decide))]
    unfold readCore
  case major m =>
    simp only [upgraded, Text.splitAt_eq_singleton (dot _), readSegment, Text.readNumber_writeNumber]
    rfl
  case anyMinor m w =>
    have wild := w.read?_text
    have split : Text.splitAt '.' ((anyMinor m w).upgraded c).toList
        = [(Text.writeNumber c.major).toList, w.text.toList] := by
      simp [upgraded, Text.splitAt_append_separator (dot _), Text.splitAt_eq_singleton wild.left]
    simp only [split, readSegment, Text.readNumber_writeNumber, wild]
    rfl
  case minor m n =>
    have split : Text.splitAt '.' ((minor m n).upgraded c).toList
        = [(Text.writeNumber c.major).toList, (Text.writeNumber c.minor).toList] := by
      simp [upgraded, Channel.toList_render, Text.splitAt_append_separator (dot _),
        Text.splitAt_eq_singleton (dot _)]
    simp only [split, readSegment, Text.readNumber_writeNumber]
    rfl
  case anyPatch m n w =>
    have wild := w.read?_text
    have split := splitAt_render (c := c) wild.left
    have text : ((anyPatch m n w).upgraded c).toList = c.render.toList ++ '.' :: w.text.toList := by
      simp [upgraded]
    simp only [text, split, readSegment, Text.readNumber_writeNumber, wild]
    rfl
  case band m n b s =>
    have outside : '.' ∉ (Text.writeNumber c.bandNumber).toList ++ s.text.toList := by
      cases s <;> simp [dot, BandSuffix.text]
    have text : ((band m n b s).upgraded c).toList
        = c.render.toList ++ '.' :: ((Text.writeNumber c.bandNumber).toList ++ s.text.toList) := by
      simp [upgraded]
    simp only [text, splitAt_render outside, readSegment, Text.readNumber_writeNumber,
      readNumber_band, readWildcard_band, readBand_append s (Text.readNumber_writeNumber _)]
    rfl

-- The wildcard of an expression.
def wildcard? : FloatingExpr → Option Wildcard
  | anyMinor _ w | anyPatch _ _ w => some w
  | major _ | minor .. | band .. | full .. => none

-- The number and the suffix of a feature band.
def band? : FloatingExpr → Option (UInt64 × BandSuffix)
  | band _ _ b suffix => some (b, suffix)
  | major _ | anyMinor .. | minor .. | anyPatch .. | full .. => none

-- An expression for a channel in the style of another one.
structure InStyle (c : Channel) (e e' : FloatingExpr) : Prop where
  precision : e'.precision = e.precision
  wildcard : e'.wildcard? = e.wildcard?
  suffix : e'.band?.map Prod.snd = e.band?.map Prod.snd
  band : ∀ b ∈ e'.band?, b.fst.toNat = c.sdk.patch.toNat / 100
  major : e'.majorNumber = c.major
  minor : ∀ n ∈ e'.minorNumber?, n = c.minor

theorem inStyle_moved (c : Channel) (e : FloatingExpr) : e.InStyle c (e.moved c) := by
  have hundreds : c.bandNumber.toNat = c.sdk.patch.toNat / 100 := UInt64.toNat_div c.sdk.patch 100
  cases e
  all_goals exact {
    precision := rfl
    wildcard := rfl
    suffix := rfl
    band := by simp [moved, band?, hundreds]
    major := rfl
    minor := by simp [moved, minorNumber?]
  }

theorem InStyle.isAtLeast (h : e.InStyle c e') : e'.isAtLeast c := by
  cases hm : e'.minorNumber? with
  | none => simp [FloatingExpr.isAtLeast, hm, h.major]
  | some n => exact isAtLeast_of_numbers h.major (h.minor n hm ▸ hm)

end FloatingExpr
end Repin
