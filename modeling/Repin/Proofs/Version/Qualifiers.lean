import Repin.Proofs.Version.RuntimeIdentifier
/-!
# The qualifiers of runtime identifiers

What follows a system is cut at its hyphens into segments, the architecture and the qualifiers. In the
portable form of a pinned identifier they stand behind the portable name, and a qualifier that the name
says already is not repeated. Only its beginning is looked for: a segment that goes on behind it loses
that beginning and is joined to the name.

Main statement: `RuntimeIdentifier.keepsQualifiers_iff`.
-/
namespace Repin

-- A beginning without separators is found in the first segment alone.
theorem Text.stripStart?_flatMap {separator : Char} {part rest : List Char}
    {segments : List (List Char)} (h : separator ∉ part) :
    stripStart? (separator :: part) (segments.flatMap (separator :: ·)) = some rest ↔
      ∃ more others, segments = (part ++ more) :: others ∧
        rest = more ++ others.flatMap (separator :: ·) := by
  rw [stripStart?_eq_some_iff]
  constructor
  case mpr =>
    rintro ⟨more, others, rfl, rfl⟩
    simp
  case mp =>
    intro heq
    cases segments with
    | nil => cases heq
    | cons segment others =>
      simp only [List.flatMap_cons, List.cons_append, List.cons.injEq, true_and] at heq
      obtain ⟨tail, rfl, he⟩ | ⟨more, rfl, he⟩ := List.append_eq_append_iff.mp heq
      case inr => exact ⟨more, others, rfl, he⟩
      case inl =>
        cases tail with
        | nil => exact ⟨[], others, by simp, by simpa using he.symm⟩
        | cons c tail =>
          -- what is left of the part would start with the separator of the next segment
          cases others with
          | nil => cases he
          | cons =>
            obtain ⟨rfl, _⟩ := List.cons.inj he
            simp at h

namespace RuntimeIdentifier

variable {r : RuntimeIdentifier} {text name : String} {cs system : List Char}
variable {segments : List (List Char)}

-- Whether a portable name says the musl qualifier.
def SaysMusl (name : String) : Prop :=
  "-musl".toList <:+ name.toList

instance (name : String) : Decidable (SaysMusl name) :=
  inferInstanceAs (Decidable (_ <:+ _))

-- The segments that belong behind a portable name.
def segmentsBehind (name : String) (segments : List (List Char)) : List (List Char) :=
  if SaysMusl name ∧ segments.head? = some "musl".toList then segments.tail else segments

-- The portable form is the portable name and the segments, each with its own text.
def KeepsQualifiers (r : RuntimeIdentifier) (name : String) (segments : List (List Char)) : Prop :=
  r.toPortable.toList = name.toList ++ (segmentsBehind name segments).flatMap ('-' :: ·)

-- The first segment goes on behind the qualifier that the name says.
def GoesOn (name : String) (segments : List (List Char)) : Prop :=
  SaysMusl name ∧ ∃ more others, segments = ("musl".toList ++ more) :: others ∧ more ≠ []

-- What follows a system, and its portable name, by the segments of the text.
theorem parts_of_splitAt (h : IsRead cs r) (hs : Text.splitAt '-' cs = system :: segments) :
    r.family = String.ofList (Text.lowercase (system.takeWhile Char.isAlpha)) ∧
      r.rest.toList = segments.flatMap ('-' :: ·) := by
  rw [h.family, h.rest, String.toList_ofList, Text.takeWhile_of_splitAt hs,
    Text.dropWhile_of_splitAt hs]
  exact ⟨rfl, rfl⟩

theorem toList_toPortable_pinned (hp : r.portability = .pinned name) :
    r.toPortable.toList = name.toList ++ if SaysMusl name then
      (Text.stripStart? "-musl".toList r.rest.toList).getD r.rest.toList else r.rest.toList := by
  rw [toPortable, hp]
  by_cases hn : SaysMusl name
  case pos =>
    have suffix := List.isSuffixOf_iff_suffix.mpr hn
    simp only [suffix, if_true, if_pos hn, String.toList_append, String.toList_ofList]
  case neg =>
    have none : ¬ "-musl".toList.isSuffixOf name.toList := mt List.isSuffixOf_iff_suffix.mp hn
    simp only [if_neg none, if_neg hn, String.toList_append, String.toList_ofList]

-- What is cut off at the front of the segments is the qualifier, be it a whole segment or not.
theorem stripped_iff {rest : List Char} :
    Text.stripStart? "-musl".toList (segments.flatMap ('-' :: ·)) = some rest ↔
      ∃ more others, segments = ("musl".toList ++ more) :: others ∧
        rest = more ++ others.flatMap ('-' :: ·) :=
  Text.stripStart?_flatMap (by decide)

-- What is written of segments of which the first starts with the qualifier of the name.
theorem toPortable_of_stripped {more : List Char} {others : List (List Char)}
    (hp : r.portability = .pinned name) (hn : SaysMusl name)
    (hr : r.rest.toList = (("musl".toList ++ more) :: others).flatMap ('-' :: ·)) :
    r.toPortable.toList = name.toList ++ (more ++ others.flatMap ('-' :: ·)) := by
  have stripped := stripped_iff.mpr ⟨more, others, rfl, rfl⟩
  rw [toList_toPortable_pinned hp, if_pos hn, hr, stripped, Option.getD_some]

theorem keepsQualifiers_of_not_goesOn (hp : r.portability = .pinned name)
    (hr : r.rest.toList = segments.flatMap ('-' :: ·)) (h : ¬ GoesOn name segments) :
    KeepsQualifiers r name segments := by
  unfold KeepsQualifiers segmentsBehind
  by_cases hn : SaysMusl name
  case neg => rw [toList_toPortable_pinned hp, if_neg hn, hr, if_neg fun both => hn both.left]
  case pos =>
    cases hs : Text.stripStart? "-musl".toList (segments.flatMap ('-' :: ·)) with
    | none =>
      have other : segments.head? ≠ some "musl".toList := by
        intro head
        obtain ⟨others, rfl⟩ := List.head?_eq_some_iff.mp head
        have stripped := stripped_iff.mpr ⟨[], others, by rw [List.append_nil], rfl⟩
        rw [stripped] at hs
        cases hs
      rw [toList_toPortable_pinned hp, if_pos hn, hr, hs, Option.getD_none,
        if_neg fun both => other both.right]
    | some rest =>
      obtain ⟨more, others, rfl, _⟩ := stripped_iff.mp hs
      obtain rfl : more = [] := by
        by_contra ne
        exact h ⟨hn, more, others, rfl, ne⟩
      rw [toPortable_of_stripped hp hn hr, if_pos ⟨hn, by simp⟩]
      rfl

theorem not_keepsQualifiers_of_goesOn (hp : r.portability = .pinned name)
    (hr : r.rest.toList = segments.flatMap ('-' :: ·)) (h : GoesOn name segments) :
    ¬ KeepsQualifiers r name segments := by
  obtain ⟨hn, more, others, rfl, ne⟩ := h
  intro keeps
  have other : ¬ (SaysMusl name ∧ (("musl".toList ++ more) :: others).head? = some "musl".toList) := by
    simp [ne]
  rw [KeepsQualifiers, segmentsBehind, if_neg other, toPortable_of_stripped hp hn hr] at keeps
  -- the qualifier that was cut off is missing
  have length := congrArg List.length keeps
  simp at length
  omega

-- A pinned identifier is written with the portable name of its family. Exactly the segments that
-- followed its system stand behind the name unless the first of them goes on behind the qualifier that
-- the name says; such a one is joined to the name without the qualifier.
theorem keepsQualifiers_iff (h : parse text = .ok r) (hp : r.portability = .pinned name) :
    ∃ system segments, Text.splitAt '-' text.toList = system :: segments ∧
      pinnedFamilies.lookup (String.ofList (Text.lowercase (system.takeWhile Char.isAlpha)))
        = some name ∧
      (KeepsQualifiers r name segments ↔ ¬ GoesOn name segments) ∧
      ∀ more others, SaysMusl name → segments = ("musl".toList ++ more) :: others →
        r.toPortable.toList = name.toList ++ (more ++ others.flatMap ('-' :: ·)) := by
  have isRead := isRead_of_read (mapError_eq_ok.mp h)
  obtain ⟨system, segments, hs⟩ := List.exists_cons_of_ne_nil (Text.splitOn_ne_nil (· == '-') text.toList)
  have ⟨family, rest⟩ := parts_of_splitAt isRead hs
  have portable := lookup_of_classify (hp ▸ isRead.portability)
  refine ⟨system, segments, hs, family ▸ portable, ?iff, ?joined⟩
  case iff =>
    constructor
    case mp => exact fun keeps goes => not_keepsQualifiers_of_goesOn hp rest goes keeps
    case mpr => exact keepsQualifiers_of_not_goesOn hp rest
  case joined =>
    rintro more others hn rfl
    exact toPortable_of_stripped hp hn rest

theorem keepsQualifiers_iff_alpine : ∃ r, parse "alpine.3.18-musl-arm64" = .ok r ∧
    r.portability = .pinned "linux-musl" ∧
    ∃ system segments, Text.splitAt '-' "alpine.3.18-musl-arm64".toList = system :: segments ∧
      pinnedFamilies.lookup (String.ofList (Text.lowercase (system.takeWhile Char.isAlpha)))
        = some "linux-musl" ∧
      (KeepsQualifiers r "linux-musl" segments ↔ ¬ GoesOn "linux-musl" segments) ∧
      ∀ more others, SaysMusl "linux-musl" → segments = ("musl".toList ++ more) :: others →
        r.toPortable.toList = "linux-musl".toList ++ (more ++ others.flatMap ('-' :: ·)) := by
  have h : parse "alpine.3.18-musl-arm64" = .ok _ := rfl
  exact ⟨_, h, rfl, keepsQualifiers_iff h rfl⟩

-- The segment `muslx64` is not the qualifier of the name, but it starts like it.
theorem not_keepsQualifiers_muslx64 : ∃ r, parse "alpine.3.18-muslx64" = .ok r ∧
    r.portability = .pinned "linux-musl" ∧
    Text.splitAt '-' "alpine.3.18-muslx64".toList = ["alpine.3.18".toList, "muslx64".toList] ∧
    r.toPortable = "linux-muslx64" ∧ ¬ KeepsQualifiers r "linux-musl" ["muslx64".toList] :=
  ⟨_, rfl, rfl, by decide, by decide +kernel, by unfold KeepsQualifiers; decide +kernel⟩

end RuntimeIdentifier
end Repin
