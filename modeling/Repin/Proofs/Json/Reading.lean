import Repin.Json.Document
/-!
# Values read from lexemes

The reader of documents is a recursion on a number of steps. `ReadsValue` says what it reads without
the ways in which it can stop: one constructor for each way to read a value, the members of an object
or the items of an array.
-/
namespace Repin.Json

mutual

inductive ReadsValue : Nat → List LocatedLexeme → Json → List LocatedLexeme → Prop where
  | object {n start : Nat} {ls rest : List LocatedLexeme} {members : List (StringLiteral × Json)} :
    ReadsMembers n ls members rest →
      ReadsValue (n + 1) (⟨start, .punctuation .openObject⟩ :: ls) (.object members) rest
  | array {n start : Nat} {ls rest : List LocatedLexeme} {items : List Json} :
    ReadsItems n ls items rest →
      ReadsValue (n + 1) (⟨start, .punctuation .openArray⟩ :: ls) (.array items) rest
  | string {n start : Nat} {rest : List LocatedLexeme} {l : StringLiteral} :
    ReadsValue (n + 1) (⟨start, .string l⟩ :: rest) (.string l) rest
  | scalar {n start : Nat} {rest : List LocatedLexeme} :
    ReadsValue (n + 1) (⟨start, .scalar⟩ :: rest) .other rest

inductive ReadsMembers :
    Nat → List LocatedLexeme → List (StringLiteral × Json) → List LocatedLexeme → Prop where
  | nil {n start : Nat} {rest : List LocatedLexeme} :
    ReadsMembers (n + 1) (⟨start, .punctuation .closeObject⟩ :: rest) [] rest
  | last {n start colon stop : Nat} {ls rest : List LocatedLexeme} {key : StringLiteral} {value : Json} :
    ReadsValue n ls value (⟨stop, .punctuation .closeObject⟩ :: rest) →
      ReadsMembers (n + 1) (⟨start, .string key⟩ :: ⟨colon, .punctuation .colon⟩ :: ls)
        [(key, value)] rest
  | cons {n start colon comma : Nat} {ls next rest : List LocatedLexeme} {key : StringLiteral}
      {value : Json} {members : List (StringLiteral × Json)} :
    ReadsValue n ls value (⟨comma, .punctuation .comma⟩ :: next) → ReadsMembers n next members rest →
      ReadsMembers (n + 1) (⟨start, .string key⟩ :: ⟨colon, .punctuation .colon⟩ :: ls)
        ((key, value) :: members) rest

inductive ReadsItems : Nat → List LocatedLexeme → List Json → List LocatedLexeme → Prop where
  | nil {n start : Nat} {rest : List LocatedLexeme} :
    ReadsItems (n + 1) (⟨start, .punctuation .closeArray⟩ :: rest) [] rest
  | last {n stop : Nat} {ls rest : List LocatedLexeme} {value : Json} :
    ReadsValue n ls value (⟨stop, .punctuation .closeArray⟩ :: rest) →
      ReadsItems (n + 1) ls [value] rest
  | cons {n comma : Nat} {ls next rest : List LocatedLexeme} {value : Json} {items : List Json} :
    ReadsValue n ls value (⟨comma, .punctuation .comma⟩ :: next) → ReadsItems n next items rest →
      ReadsItems (n + 1) ls (value :: items) rest

end

mutual

theorem readsValue : ∀ {n : Nat} {ls rest : List LocatedLexeme} {value : Json},
    readValue n ls = .ok (value, rest) → ReadsValue n ls value rest
  | 0, _, _, _, h => by cases h
  | n + 1, ls, rest, value, h => by
    unfold readValue at h
    split at h
    case h_1 => contradiction
    case h_2 heq =>
      cases heq
      split at h
      case h_1 => cases h
      case h_2 hm =>
        cases h
        exact .object (readsMembers hm)
    case h_3 heq =>
      cases heq
      split at h
      case h_1 => cases h
      case h_2 hi =>
        cases h
        exact .array (readsItems hi)
    case h_4 =>
      cases h
      exact .string
    case h_5 =>
      cases h
      exact .scalar
    case h_6 => cases h

theorem readsMembers : ∀ {n : Nat} {ls rest : List LocatedLexeme}
    {members : List (StringLiteral × Json)},
    readMembers n ls = .ok (members, rest) → ReadsMembers n ls members rest
  | 0, _, _, _, h => by cases h
  | n + 1, ls, rest, members, h => by
    unfold readMembers at h
    split at h
    case h_1 => contradiction
    case h_2 =>
      cases h
      exact .nil
    case h_3 heq =>
      cases heq
      split at h
      case h_1 => cases h
      case h_2 hv =>
        cases h
        exact .last (readsValue hv)
      case h_3 hv =>
        split at h
        case h_1 => cases h
        case h_2 hm =>
          cases h
          exact .cons (readsValue hv) (readsMembers hm)
      case h_4 => cases h
    case h_4 => cases h
    case h_5 => cases h

theorem readsItems : ∀ {n : Nat} {ls rest : List LocatedLexeme} {items : List Json},
    readItems n ls = .ok (items, rest) → ReadsItems n ls items rest
  | 0, _, _, _, h => by cases h
  | n + 1, ls, rest, items, h => by
    unfold readItems at h
    split at h
    case h_1 => contradiction
    case h_2 =>
      cases h
      exact .nil
    case h_3 heq _ =>
      cases heq
      split at h
      case h_1 => cases h
      case h_2 hv =>
        cases h
        exact .last (readsValue hv)
      case h_3 hv =>
        split at h
        case h_1 => cases h
        case h_2 hi =>
          cases h
          exact .cons (readsValue hv) (readsItems hi)
      case h_4 => cases h

end

mutual

theorem ReadsValue.readValue_eq : ∀ {n : Nat} {ls rest : List LocatedLexeme} {value : Json},
    ReadsValue n ls value rest → readValue n ls = .ok (value, rest)
  | _, _, _, _, .object hm => by simp [readValue, hm.readMembers_eq]
  | _, _, _, _, .array hi => by simp [readValue, hi.readItems_eq]
  | _, _, _, _, .string => rfl
  | _, _, _, _, .scalar => rfl

theorem ReadsMembers.readMembers_eq : ∀ {n : Nat} {ls rest : List LocatedLexeme}
    {members : List (StringLiteral × Json)},
    ReadsMembers n ls members rest → readMembers n ls = .ok (members, rest)
  | _, _, _, _, .nil => rfl
  | _, _, _, _, .last hv => by simp [readMembers, hv.readValue_eq]
  | _, _, _, _, .cons hv hm => by simp [readMembers, hv.readValue_eq, hm.readMembers_eq]

theorem ReadsItems.readItems_eq : ∀ {n : Nat} {ls rest : List LocatedLexeme} {items : List Json},
    ReadsItems n ls items rest → readItems n ls = .ok (items, rest)
  | _, _, _, _, .nil => rfl
  | _, _, _, _, .last hv => by
    have value := hv.readValue_eq
    cases hv <;> simp [readItems, value]
  | _, _, _, _, .cons hv hi => by
    have value := hv.readValue_eq
    have items := hi.readItems_eq
    cases hv <;> simp [readItems, value, items]

end

end Repin.Json
