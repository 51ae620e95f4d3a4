import Mathlib.Data.List.Basic
import Repin.Proofs.Text.Blank
import Repin.Text.Lines
/-!
# Conventions for ending lines

Whether a line feed ends its line by a convention is seen from the one character in front of it. So a
part of a text is judged behind the text in front of it, and only the end of that matters: a printed
text in the middle can give way to another one without a line behind it noticing.

Main statements: `Newline.HoldsIn.replace`, `Newline.HoldsIn.insert`.
-/
namespace Repin

variable {newline : Newline} {front front' lead old new trail as bs cs : List Char}

namespace Text

-- The last character of a text is no blank.
def EndsPrinted (cs : List Char) : Prop :=
  ∃ d, cs.getLast? = some d ∧ isBlank d = false

theorem IsTrimmed.endsPrinted (h : IsTrimmed cs) (ne : cs ≠ []) : EndsPrinted cs := by
  have ⟨d, hd⟩ := Option.ne_none_iff_exists'.mp (mt List.getLast?_eq_none_iff.mp ne)
  exact ⟨d, hd, h.last d hd⟩

theorem EndsPrinted.append (h : EndsPrinted bs) (as : List Char) : EndsPrinted (as ++ bs) := by
  obtain ⟨d, hd, printed⟩ := h
  exact ⟨d, by rw [List.getLast?_append, hd, Option.some_or], printed⟩

theorem EndsPrinted.getLast?_ne (h : EndsPrinted cs) : cs.getLast? ≠ some '\r' := by
  obtain ⟨d, hd, printed⟩ := h
  rw [hd]
  rintro ⟨⟩
  exact absurd printed (by decide)

-- Something printed is left in front of the blanks at the end of a text.
theorem EndsPrinted.trimEnd (h : EndsPrinted as) (inside : as <:+: cs) : EndsPrinted (trimEnd cs) := by
  obtain ⟨d, hd, printed⟩ := h
  have ne : Text.trimEnd cs ≠ [] := by
    intro empty
    have blank := trimEnd_eq_nil_iff.mp empty d (inside.mem (List.mem_of_getLast? hd))
    simp [printed] at blank
  have ⟨e, he⟩ := Option.ne_none_iff_exists'.mp (mt List.getLast?_eq_none_iff.mp ne)
  exact ⟨e, he, isBlank_getLast?_trimEnd he⟩

end Text

namespace Newline

-- Every line feed of a text stands behind a carriage return with `crlf`, and none does with `lf`.
def HoldsIn (newline : Newline) (cs : List Char) : Prop :=
  ∀ before after, cs = before ++ '\n' :: after →
    (before.getLast? = some '\r' ↔ newline = .crlf)

-- The same for a text that stands behind another one.
def HoldsBehind (newline : Newline) (front cs : List Char) : Prop :=
  ∀ before after, cs = before ++ '\n' :: after →
    ((front ++ before).getLast? = some '\r' ↔ newline = .crlf)

theorem holdsIn_iff : newline.HoldsIn cs ↔ newline.HoldsBehind [] cs := .rfl

theorem holdsBehind_of_not_mem (h : '\n' ∉ cs) : newline.HoldsBehind front cs := by
  rintro before after rfl
  simp at h

theorem holdsIn_of_not_mem (h : '\n' ∉ cs) : newline.HoldsIn cs :=
  holdsIn_iff.mpr (holdsBehind_of_not_mem h)

theorem holdsIn_iff_getElem? : newline.HoldsIn cs ↔ ∀ n < cs.length, cs[n]? = some '\n' →
    ((cs.take n).getLast? = some '\r' ↔ newline = .crlf) := by
  constructor
  case mp =>
    intro h n inside hn
    have here : cs[n] = '\n' := List.getElem_eq_iff inside |>.mpr hn
    apply h (cs.take n) (cs.drop (n + 1))
    rw [← here, ← List.drop_eq_getElem_cons inside, List.take_append_drop]
  case mpr =>
    rintro h before after rfl
    simpa using h before.length (by simp) (by simp)

instance : Decidable (newline.HoldsIn cs) :=
  decidable_of_iff _ holdsIn_iff_getElem?.symm

theorem holdsBehind_append : newline.HoldsBehind front (as ++ bs) ↔
    newline.HoldsBehind front as ∧ newline.HoldsBehind (front ++ as) bs := by
  constructor
  case mp =>
    intro h
    constructor
    · rintro before after rfl
      exact h before (after ++ bs) (by simp)
    · rintro before after rfl
      rw [List.append_assoc]
      exact h (as ++ before) after (by simp)
  case mpr =>
    rintro ⟨ha, hb⟩ before after whole
    obtain ⟨behind, rfl, cut⟩ | ⟨behind, rfl, cut⟩ := List.append_eq_append_iff.mp whole
    case inl =>
      rw [← List.append_assoc]
      exact hb behind after cut
    case inr =>
      cases behind with
      | nil =>
        have here := hb [] after cut.symm
        rwa [List.append_nil, List.append_nil] at here
      | cons d behind =>
        cases cut
        exact ha before behind rfl

-- Only the end of what stands in front counts.
theorem HoldsBehind.exchange (h : newline.HoldsBehind front cs)
    (same : front'.getLast? = some '\r' ↔ front.getLast? = some '\r') :
    newline.HoldsBehind front' cs := by
  intro before after whole
  have old := h before after whole
  cases hb : before.getLast? with
  | none =>
    rw [List.getLast?_append, hb, Option.none_or] at old ⊢
    exact same.trans old
  | some d =>
    rw [List.getLast?_append, hb, Option.some_or] at old ⊢
    exact old

-- What does not start with a line feed may stand behind anything.
theorem HoldsBehind.of_head (h : newline.HoldsBehind front cs)
    (head : ∀ d, cs.head? = some d → Text.isBlank d = false) : newline.HoldsBehind front' cs := by
  intro before after whole
  have old := h before after whole
  cases before with
  | nil =>
    subst whole
    exact absurd (head '\n' rfl) (by decide)
  | cons d ds =>
    rwa [List.getLast?_append_of_ne_nil _ (List.cons_ne_nil d ds)] at old ⊢

theorem HoldsIn.of_infix (h : newline.HoldsIn cs) (inside : as <:+: cs)
    (head : ∀ d, as.head? = some d → Text.isBlank d = false) : newline.HoldsIn as := by
  obtain ⟨pre, post, rfl⟩ := inside
  have ⟨front, _⟩ := holdsBehind_append.mp (holdsIn_iff.mp h)
  exact holdsIn_iff.mpr ((holdsBehind_append.mp front).right.of_head head)

-- A printed text gives way to another one.
theorem HoldsIn.replace (h : newline.HoldsIn (lead ++ (old ++ trail)))
    (hn : newline.HoldsBehind lead new) (ends : Text.EndsPrinted old) (ends' : Text.EndsPrinted new) :
    newline.HoldsIn (lead ++ (new ++ trail)) := by
  rw [holdsIn_iff, holdsBehind_append, holdsBehind_append] at h ⊢
  obtain ⟨before, _, behind⟩ := h
  refine ⟨before, hn, behind.exchange ?_⟩
  exact iff_of_false (ends'.append _).getLast?_ne (ends.append _).getLast?_ne

-- A printed text comes between a text and the blanks at its end.
theorem HoldsIn.insert (h : newline.HoldsIn cs) (hn : newline.HoldsBehind (Text.trimEnd cs) new)
    (ends : Text.EndsPrinted (Text.trimEnd cs)) (ends' : Text.EndsPrinted new) :
    newline.HoldsIn (Text.trimEnd cs ++ (new ++ Text.trailing cs)) := by
  rw [← Text.trimEnd_append_trailing cs] at h
  have body := (holdsBehind_append.mp (holdsIn_iff.mp h)).left
  have grown : newline.HoldsBehind [] (Text.trimEnd cs ++ new) := holdsBehind_append.mpr ⟨body, hn⟩
  rw [← List.append_assoc]
  exact h.replace grown ends (ends'.append _)

-- The line break of a convention, behind a printed text, keeps to the convention.
theorem holdsBehind_text (ends : Text.EndsPrinted front) (newline : Newline) :
    newline.HoldsBehind front newline.text.toList := by
  intro before after whole
  cases newline with
  | lf =>
    obtain rfl : before = [] := by
      cases before with
      | nil => rfl
      | cons d ds => simp [text] at whole
    simpa using ends.getLast?_ne
  | crlf =>
    obtain rfl : before = ['\r'] := by
      cases before with
      | nil => simp [text] at whole
      | cons d ds =>
        obtain ⟨rfl, rest⟩ : '\r' = d ∧ ['\n'] = ds ++ '\n' :: after := by simpa [text] using whole
        cases ds with
        | nil => rfl
        | cons => simp at rest
    simp

theorem holdsBehind_intercalate {separator : Char} {pieces : List (List Char)}
    (hs : separator ≠ '\n') (h : ∀ piece ∈ pieces, ∀ front, newline.HoldsBehind front piece)
    (front : List Char) : newline.HoldsBehind front ([separator].intercalate pieces) := by
  have mark (front : List Char) : newline.HoldsBehind front [separator] :=
    holdsBehind_of_not_mem (by simpa using hs.symm)
  induction pieces generalizing front with
  | nil => exact holdsBehind_of_not_mem (by simp)
  | cons piece rest ih =>
    have first := h piece List.mem_cons_self
    cases rest with
    | nil => simpa using first front
    | cons second rest =>
      have tail := ih fun p hp => h p (List.mem_cons_of_mem _ hp)
      rw [List.intercalate_cons_cons, holdsBehind_append, holdsBehind_append]
      exact ⟨⟨first _, mark _⟩, tail _⟩

end Newline
end Repin
