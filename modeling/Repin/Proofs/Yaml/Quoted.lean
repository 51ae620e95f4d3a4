import Repin.Proofs.Text.Position
import Repin.Proofs.Yaml.Node
/-!
# Scalars between single quotes

Between single quotes a quote is written twice. Such a scalar should not be patched, and the source tells
it apart: read behind the opening quote it is not the value, or no quote follows. Except where all quotes
stand at the end: there the second one of a pair is taken for the closing quote.

Main statement: `Node.placeIn_singleQuoted`.
-/
namespace Repin

namespace Yaml

-- The single quote.
def singleQuote : Char := Char.ofNat 39

-- What stands between single quotes, and what is read from it: every quote is written twice.
inductive Halves : List Char → List Char → Prop where
  | nil : Halves [] []
  | quote {body value : List Char} : Halves body value →
    Halves (singleQuote :: singleQuote :: body) (singleQuote :: value)
  | other {c : Char} {body value : List Char} : c ≠ singleQuote → Halves body value →
    Halves (c :: body) (c :: value)

-- A value with quotes, all of which stand at its end.
def EndsInQuotes (value : List Char) : Prop :=
  ∃ front k, singleQuote ∉ front ∧ value = front ++ List.replicate (k + 1) singleQuote

variable {before after body value : List Char} {c : Char} {mark : Mark}

theorem endsInQuotes_singleQuote_cons :
    EndsInQuotes (singleQuote :: value) ↔ ∀ c ∈ value, c = singleQuote := by
  constructor
  case mp =>
    rintro ⟨front, k, none, heq⟩
    cases front with
    | nil =>
      rw [List.nil_append, List.replicate_succ, List.cons.injEq] at heq
      exact (List.eq_replicate_iff.mp heq.right).right
    | cons c front =>
      cases heq
      simp at none
  case mpr =>
    intro all
    refine ⟨[], value.length, List.not_mem_nil, ?_⟩
    rw [List.nil_append, List.replicate_succ, ← List.eq_replicate_of_mem all]

theorem endsInQuotes_cons (ne : c ≠ singleQuote) : EndsInQuotes (c :: value) ↔ EndsInQuotes value := by
  constructor
  case mp =>
    rintro ⟨front, k, none, heq⟩
    cases front with
    | nil =>
      cases heq
      contradiction
    | cons d front =>
      cases heq
      exact ⟨front, k, (not_or.mp (mt List.mem_cons.mpr none)).right, rfl⟩
  case mpr =>
    rintro ⟨front, k, none, rfl⟩
    exact ⟨c :: front, k, by simp [none, ne.symm], rfl⟩

namespace Halves

theorem mem_iff (h : Halves body value) : singleQuote ∈ body ↔ singleQuote ∈ value := by
  induction h with
  | nil => rfl
  | quote => simp
  | other ne _ ih => simp [ne.symm, ih]

-- Where there are no quotes, the value is written literally.
theorem eq_of_not_mem (h : Halves body value) (none : singleQuote ∉ value) : body = value := by
  induction h with
  | nil => rfl
  | quote => simp at none
  | other _ _ ih => rw [ih (not_or.mp (mt List.mem_cons.mpr none)).right]

-- Behind further quotes, the value is read literally where it is made of quotes.
theorem isPrefix_behind_iff (h : Halves body value) (n : Nat) (after : List Char) :
    value ++ [singleQuote] <+: List.replicate (n + 1) singleQuote ++ (body ++ singleQuote :: after) ↔
      ∀ c ∈ value, c = singleQuote := by
  induction h generalizing n with
  | nil => simp [List.replicate_succ]
  | @quote body value _ ih =>
    -- a quote of the pair is read, so the other one stands before the rest
    have shift : List.replicate n singleQuote
          ++ (singleQuote :: singleQuote :: body ++ singleQuote :: after)
        = List.replicate (n + 1 + 1) singleQuote ++ (body ++ singleQuote :: after) := by
      simp [List.replicate_succ']
    rw [List.replicate_succ, List.cons_append, List.cons_append, List.cons_prefix_cons, shift,
      ih (n + 1)]
    simp
  | other ne _ => simp [List.replicate_succ, List.cons_prefix_cons, ne]

-- With a quote behind it the value is read literally where all its quotes stand at its end.
theorem isPrefix_iff (h : Halves body value) (after : List Char) :
    value ++ [singleQuote] <+: body ++ singleQuote :: after ↔
      singleQuote ∉ value ∨ EndsInQuotes value := by
  induction h with
  | nil => simp
  | @quote body value h =>
    have behind := h.isPrefix_behind_iff 0 after
    rw [endsInQuotes_singleQuote_cons, List.cons_append, List.cons_append, List.cons_append,
      List.cons_prefix_cons, ← behind]
    simp
  | other ne _ ih =>
    rw [endsInQuotes_cons ne, List.cons_append, List.cons_append, List.cons_prefix_cons, ih]
    simp [ne.symm]

end Halves

namespace ScalarPlace

open Text (byteLength)

-- A quoted scalar is patchable where its value and a quote stand behind the opening quote.
theorem quoted_append {q : Char} (one : q.utf8Size = 1) (before cs value : List Char) :
    quoted (before ++ q :: cs) (byteLength before) value q
      = inline (byteLength before + 1) value (value ++ [q] <+: cs) := by
  have start : min (byteLength before + 1) (byteLength (before ++ q :: cs))
      = byteLength (before ++ [q]) := by
    simp only [Text.byteLength_append, Text.byteLength_cons, Text.byteLength_nil, one]
    omega
  have length : byteLength before + 1 = byteLength (before ++ [q]) := by simp [one]
  have whole : before ++ q :: cs = (before ++ [q]) ++ cs := by simp
  rw [quoted, start, whole, length]
  congr 1
  by_cases here : value <+: cs
  case pos =>
    obtain ⟨rest, rfl⟩ := here
    have cut := Text.splitAtByte_append (before ++ [q] ++ value) rest
    rw [Text.byteLength_append, List.append_assoc] at cut
    have literally := (Text.slice_append_eq_some_iff (before ++ [q])).mpr
      (List.prefix_append value rest)
    rw [cut, literally]
    simp only [List.prefix_append_right_inj]
    cases rest with
    | nil => simp
    | cons d rest =>
      by_cases same : q = d
      · simp [same]
      · simp [same, Ne.symm same]
  case neg =>
    have longer : ¬ value ++ [q] <+: cs := fun h => here ((List.prefix_append value [q]).trans h)
    have elsewhere := mt (Text.slice_append_eq_some_iff (before ++ [q])).mp here
    rw [decide_eq_false elsewhere, decide_eq_false longer, Bool.false_and]

end ScalarPlace

namespace Node

-- What is asked of a scalar between single quotes: it can be patched where no quote is doubled, and then
-- its span is what stands between the quotes.
structure PatchesUnescaped (before body : List Char) (place : ScalarPlace) : Prop where
  patchable : place.patchable ↔ singleQuote ∉ body
  span : place.patchable → place.span = .ofLength (Text.byteLength before + 1) (Text.byteLength body)

-- A scalar between single quotes can be patched where all its quotes stand at its end. So what is asked of
-- it holds where it has none, or one with another character behind it.
theorem placeIn_singleQuoted (h : Halves body value) (hm : mark.index = before.length)
    (after : List Char) :
    let place := placeIn (before ++ singleQuote :: (body ++ singleQuote :: after)) mark .singleQuoted
      (String.ofList value)
    (place.patchable ↔ singleQuote ∉ value ∨ EndsInQuotes value) ∧
    (place.patchable →
      place.span = .ofLength (Text.byteLength before + 1) (Text.byteLength value)) ∧
    (PatchesUnescaped before body place ↔ ¬ EndsInQuotes value) := by
  intro place
  have found : place = .inline (Text.byteLength before + 1) value
      (value ++ [singleQuote] <+: body ++ singleQuote :: after) := by
    have one : singleQuote.utf8Size = 1 := rfl
    rw [← ScalarPlace.quoted_append one, ← Text.byteOffset_append before singleQuote, ← hm]
    simp only [place, placeIn, ScalarPlace.find, String.toList_ofList]
    rfl
  have patchable : place.patchable ↔ singleQuote ∉ value ∨ EndsInQuotes value := by
    rw [found, ← h.isPrefix_iff after]
    exact decide_eq_true_iff
  have span : place.patchable →
      place.span = .ofLength (Text.byteLength before + 1) (Text.byteLength value) := by
    rw [found]
    intro literally
    simp only [ScalarPlace.inline] at literally ⊢
    rw [if_pos literally]
  refine ⟨patchable, span, fun asked ends => ?_, fun ends => ⟨?_, fun literally => ?_⟩⟩
  case _ =>
    have none := asked.patchable.mp (patchable.mpr (.inr ends))
    rw [h.mem_iff] at none
    obtain ⟨front, k, _, rfl⟩ := ends
    simp at none
  case _ => rw [patchable, h.mem_iff, or_iff_left ends]
  case _ =>
    have none := (patchable.mp literally).resolve_right ends
    rw [span literally, h.eq_of_not_mem none]

-- The only quote of a value is doubled at its end.
theorem placeIn_singleQuoted_last :
    let quoted := singleQuote :: ("6.0.x".toList ++ [singleQuote, singleQuote, singleQuote])
    let value := "6.0.x".toList ++ [singleQuote]
    let place := placeIn ("v: ".toList ++ (quoted ++ ['\n'])) ⟨3, 1, 3⟩ .singleQuoted
      (String.ofList value)
    Halves ("6.0.x".toList ++ [singleQuote, singleQuote]) value ∧
    (place.patchable ↔ singleQuote ∉ value ∨ EndsInQuotes value) ∧
    (place.patchable → place.span = .ofLength 4 6) ∧
    (PatchesUnescaped "v: ".toList ("6.0.x".toList ++ [singleQuote, singleQuote]) place ↔
      ¬ EndsInQuotes value) := by
  intro quoted value place
  have halves : Halves ("6.0.x".toList ++ [singleQuote, singleQuote]) value := by
    refine .other (by decide) (.other (by decide) (.other (by decide) (.other (by decide)
      (.other (by decide) (.quote .nil)))))
  have start : (Mark.mk 3 1 3).index = "v: ".toList.length := rfl
  exact ⟨halves, placeIn_singleQuoted halves start ['\n']⟩

-- A quote is doubled at the end of a value, and the value can be patched: a new text would stand in
-- front of a quote that is left over.
theorem not_patchesUnescaped_last :
    let body := ['i', 't', singleQuote, singleQuote]
    let place := placeIn ("b: ".toList ++ singleQuote :: (body ++ [singleQuote, '\n'])) ⟨3, 1, 3⟩
      .singleQuoted (String.ofList ['i', 't', singleQuote])
    Halves body ['i', 't', singleQuote] ∧ singleQuote ∈ body ∧
    place = ⟨.ofLength 4 3, false, true⟩ ∧ ¬ PatchesUnescaped "b: ".toList body place := by
  intro body place
  have found : place = ⟨.ofLength 4 3, false, true⟩ := by decide +kernel
  have doubled : singleQuote ∈ body := by decide
  refine ⟨.other (by decide) (.other (by decide) (.quote .nil)), doubled, found, fun asked => ?_⟩
  exact asked.patchable.mp (by rw [found]) doubled

end Node
end Yaml
end Repin
