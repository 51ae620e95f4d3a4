import Repin.Proofs.Json.Document
/-!
# The language of JSON with comments

The reader accepts the texts of the grammar and no others, and the tree that it gives is the tree of
the grammar. Soundness follows the reader, completeness the rules of the grammar; both know a rest of
the text by its lexemes.
-/
namespace Repin.Json

open Grammar

variable {length : Nat} {cs next rest : List Char} {ls : List LocatedLexeme} {c : Char}

theorem Grammar.Trivia.isSuffix (h : Trivia cs rest) : rest <:+ cs := by
  induction h with
  | done => exact List.suffix_refl _
  | blank _ _ ih => exact ih.trans (List.suffix_cons ..)
  | @line body after _ _ _ _ _ ih => exact ih.trans ⟨'/' :: '/' :: body, by simp⟩
  | @block body after _ _ _ ih => exact ih.trans ⟨'/' :: '*' :: (body ++ ['*', '/']), by simp⟩

theorem byteLength_skipTrivia_le (cs : List Char) :
    Text.byteLength (skipTrivia cs) ≤ Text.byteLength cs := by
  have ⟨trivia, heq⟩ := (trivia_skipTrivia cs).isSuffix
  have length := congrArg Text.byteLength heq
  rw [Text.byteLength_append] at length
  omega

theorem placeOf_lexemesFrom {offset : Nat} :
    placeOf (lexemesFrom offset cs)
      = offset + (Text.byteLength cs - Text.byteLength (skipTrivia cs)) := by
  fun_cases lexemesFrom offset cs <;> rfl

theorem lexemesFrom_congr {offset offset' : Nat} (h : skipTrivia cs = skipTrivia next)
    (ho : offset + Text.byteLength cs = offset' + Text.byteLength next) :
    lexemesFrom offset cs = lexemesFrom offset' next := by
  have place : offset + (Text.byteLength cs - Text.byteLength (skipTrivia cs))
      = offset' + (Text.byteLength next - Text.byteLength (skipTrivia next)) := by
    have le := byteLength_skipTrivia_le cs
    have le' := byteLength_skipTrivia_le next
    rw [h] at le ⊢
    omega
  rw [lexemesFrom, lexemesFrom.eq_def offset' next]
  dsimp only
  rw [place, h]

-- The lexemes of the rest of a document whose length in bytes is given.
def LexesTo (length : Nat) (cs : List Char) (ls : List LocatedLexeme) : Prop :=
  ∃ offset, offset + Text.byteLength cs = length ∧ lexemesFrom offset cs = ls

theorem Grammar.Trivia.lexesTo (h : Trivia cs next) (hl : LexesTo length cs ls) :
    LexesTo length next ls := by
  obtain ⟨offset, rfl, rfl⟩ := hl
  have ⟨trivia, heq⟩ := h.isSuffix
  have length := congrArg Text.byteLength heq
  rw [Text.byteLength_append] at length
  refine ⟨offset + Text.byteLength trivia, by omega, ?_⟩
  exact lexemesFrom_congr h.skipTrivia_eq.symm (by omega)

def Punctuation.char : Punctuation → Char
  | .openObject => '\x7b'
  | .closeObject => '\x7d'
  | .openArray => '['
  | .closeArray => ']'
  | .colon => ':'
  | .comma => ','

theorem punctuation?_eq_some_iff {p : Punctuation} : punctuation? c = some p ↔ c = p.char := by
  constructor
  case mp =>
    intro h
    unfold punctuation? at h
    split at h <;> cases h <;> rfl
  case mpr =>
    rintro rfl
    cases p <;> rfl

theorem Skips.trivia {trivia : List Char} (h : Skips trivia c) (more : List Char) :
    Trivia (trivia ++ c :: more) (c :: more) := by
  have skipped := trivia_skipTrivia (trivia ++ c :: more)
  rwa [h more] at skipped

namespace LexesTo

variable {start : Nat} {l : StringLiteral} {p : Punctuation}

theorem exists_lexes (h : LexesTo length cs ls) : ∃ offset, offset + Text.byteLength cs = length ∧
    Lexes offset cs ls := by
  obtain ⟨offset, hl, rfl⟩ := h
  exact ⟨offset, hl, lexes offset cs⟩

theorem exists_punctuation (h : LexesTo length cs (⟨start, .punctuation p⟩ :: ls)) :
    ∃ rest, Trivia cs (p.char :: rest) ∧ LexesTo length rest ls := by
  obtain ⟨offset, hl, lexed⟩ := h.exists_lexes
  generalize hx : LocatedLexeme.mk start (.punctuation p) :: ls = all at lexed
  cases lexed with
  | last _ other => obtain other | ⟨stop, other⟩ := other <;> simp [other] at hx
  | punctuation skips hp tail =>
    cases hx
    obtain rfl := punctuation?_eq_some_iff.mp hp
    exact ⟨_, skips.trivia _, _, by simpa [Nat.add_assoc] using hl, tail.lexemesFrom_eq⟩
  | scalar => cases hx
  | string => cases hx

theorem exists_scalar (h : LexesTo length cs (⟨start, .scalar⟩ :: ls)) :
    ∃ scalar rest, Trivia cs (scalar ++ rest) ∧ Scalar scalar ∧ LexesTo length rest ls := by
  obtain ⟨offset, hl, lexed⟩ := h.exists_lexes
  generalize hx : LocatedLexeme.mk start .scalar :: ls = all at lexed
  cases lexed with
  | last _ other => obtain other | ⟨stop, other⟩ := other <;> simp [other] at hx
  | punctuation => cases hx
  | @scalar _ _ scalar rest c _ skips _ _ found tail =>
    cases hx
    obtain ⟨scalar', heq, isScalar, _⟩ := afterScalar?_append (found _ rfl)
    obtain rfl : c :: scalar = scalar' := List.append_cancel_right heq
    exact ⟨_, _, skips.trivia _, isScalar, _, by simpa [Nat.add_assoc] using hl, tail.lexemesFrom_eq⟩
  | string => cases hx

theorem exists_string (h : LexesTo length cs (⟨start, .string l⟩ :: ls)) :
    ∃ next rest, Trivia cs next ∧ Literal length next l rest ∧ LexesTo length rest ls := by
  obtain ⟨offset, hl, lexed⟩ := h.exists_lexes
  generalize hx : LocatedLexeme.mk start (.string l) :: ls = all at lexed
  cases lexed with
  | last _ other => obtain other | ⟨stop, other⟩ := other <;> simp [other] at hx
  | punctuation => cases hx
  | scalar => cases hx
  | @string _ trivia content value rest _ skips quoted tail =>
    cases hx
    have quote : ('"' : Char).utf8Size = 1 := by decide
    simp only [Text.byteLength_append, Text.byteLength_cons, quote] at hl
    refine ⟨_, rest, skips.trivia _, ?_, _, by omega, tail.lexemesFrom_eq⟩
    have place : offset + Text.byteLength trivia + 1
        = length - Text.byteLength (content ++ '"' :: rest) := by
      simp only [Text.byteLength_append, Text.byteLength_cons, quote]
      omega
    rw [place]
    exact .quotes quoted

end LexesTo

-- A number would not go on here.
def Ends (cs : List Char) : Prop :=
  ∀ c ∈ cs.head?, isNumberChar c = false

theorem Grammar.Trivia.ends (h : Trivia cs rest) (hr : Ends rest) : Ends cs := by
  cases h with
  | done => exact hr
  | blank space =>
    simp at space
    rcases space with rfl | rfl | rfl | rfl <;> simp [Ends, isNumberChar]
  | line => simp [Ends, isNumberChar]
  | block => simp [Ends, isNumberChar]

theorem Punctuation.ends (p : Punctuation) : Ends (p.char :: rest) := by
  cases p <;> simp [Ends, isNumberChar, char]

theorem lexesTo_punctuation {p : Punctuation} (h : LexesTo length (p.char :: rest) ls) :
    ∃ start tail, ls = ⟨start, .punctuation p⟩ :: tail ∧ LexesTo length rest tail := by
  obtain ⟨offset, rfl, rfl⟩ := h
  have hp := punctuation?_eq_some_iff.mpr (Eq.refl p.char)
  have ⟨space, slash⟩ := not_isSpace_of_punctuation? hp
  have lexed := @lexemesFrom_punctuation rest _ offset [] _ (skipTrivia_stop space slash) hp
  exact ⟨_, _, lexed, _, by simp [Nat.add_assoc], rfl⟩

theorem Grammar.Literal.lexesTo {l : StringLiteral} (h : Literal length cs l rest)
    (hl : LexesTo length cs ls) :
    ∃ start tail, ls = ⟨start, .string l⟩ :: tail ∧ LexesTo length rest tail := by
  obtain ⟨offset, hl, rfl⟩ := hl
  cases h with
  | @quotes content value _ quoted =>
    have quote : ('"' : Char).utf8Size = 1 := by decide
    have skips := @skipTrivia_stop (content ++ '"' :: rest) '"' (by decide) (by decide)
    have lexed := @lexemesFrom_string _ offset [] _ skips (quoted.readString_eq rest)
    simp only [List.nil_append, Text.byteLength_nil, Nat.add_zero] at lexed
    simp only [Text.byteLength_append, Text.byteLength_cons, quote] at hl
    have place : offset + 1 = length - Text.byteLength (content ++ '"' :: rest) := by
      simp only [Text.byteLength_append, Text.byteLength_cons, quote]
      omega
    rw [place] at lexed
    exact ⟨_, _, lexed, _, by omega, rfl⟩

theorem punctuation?_eq_none_of_afterScalar? {after : List Char}
    (h : afterScalar? (c :: rest) = some after) : c ≠ '"' ∧ punctuation? c = none := by
  constructor
  case left =>
    rintro rfl
    cases h
  case right =>
    cases hp : punctuation? c
    case none => rfl
    case some p =>
      obtain rfl := punctuation?_eq_some_iff.mp hp
      cases p <;> cases h

theorem Grammar.Scalar.lexesTo {scalar : List Char} (h : Scalar scalar) (hr : Ends rest)
    (hl : LexesTo length (scalar ++ rest) ls) :
    ∃ start tail, ls = ⟨start, .scalar⟩ :: tail ∧ LexesTo length rest tail := by
  obtain ⟨offset, rfl, rfl⟩ := hl
  have found := h.afterScalar?_eq hr
  cases scalar with
  | nil => exact absurd rfl h.ne_nil
  | cons c scalar =>
    have ⟨space, slash⟩ := not_isSpace_of_afterScalar? found
    have ⟨quote, hp⟩ := punctuation?_eq_none_of_afterScalar? found
    have lexed := @lexemesFrom_scalar _ _ offset [] _ (skipTrivia_stop space slash) quote hp found
    exact ⟨_, _, lexed, _, by simp [Nat.add_assoc], rfl⟩

mutual

-- What is read is a value of the grammar, and the lexemes that are left are those of the text behind it.
theorem ReadsValue.sound : ∀ {n : Nat} {cs : List Char} {ls rest : List LocatedLexeme} {value : Json},
    ReadsValue n ls value rest → LexesTo length cs ls → ∃ next after, Trivia cs next ∧
      Grammar.Value length next value after ∧ LexesTo length after rest
  | _, _, _, _, _, .object hm, hl => by
    have ⟨_, opened, hl⟩ := hl.exists_punctuation
    obtain ⟨after, closed, hl⟩ := hm.sound hl
    obtain ⟨rfl, closed⟩ | ⟨last, members, closes⟩ := closed
    · exact ⟨_, after, opened, .emptyObject closed, hl⟩
    · exact ⟨_, after, opened, .object members closes, hl⟩
  | _, _, _, _, _, .array hi, hl => by
    have ⟨_, opened, hl⟩ := hl.exists_punctuation
    obtain ⟨after, closed, hl⟩ := hi.sound hl
    obtain ⟨rfl, closed⟩ | ⟨last, items, closes⟩ := closed
    · exact ⟨_, after, opened, .emptyArray closed, hl⟩
    · exact ⟨_, after, opened, .array items closes, hl⟩
  | _, _, _, _, _, .string, hl => by
    have ⟨next, after, blanks, literal, hl⟩ := hl.exists_string
    exact ⟨next, after, blanks, .string literal, hl⟩
  | _, _, _, _, _, .scalar, hl => by
    have ⟨_, after, blanks, scalar, hl⟩ := hl.exists_scalar
    exact ⟨_, after, blanks, .scalar scalar, hl⟩

-- The reader takes a closing brace for no members, also behind a comma.
theorem ReadsMembers.sound : ∀ {n : Nat} {cs : List Char} {ls rest : List LocatedLexeme}
    {members : List (StringLiteral × Json)}, ReadsMembers n ls members rest → LexesTo length cs ls →
      ∃ after, ((members = [] ∧ Trivia cs ('\x7d' :: after)) ∨
        ∃ last, Members length cs members last ∧ Closes '\x7d' last after) ∧ LexesTo length after rest
  | _, _, _, _, _, .nil, hl => by
    have ⟨after, closed, hl⟩ := hl.exists_punctuation
    exact ⟨after, .inl ⟨rfl, closed⟩, hl⟩
  | _, _, _, _, _, .last hv, hl => by
    have ⟨_, _, named, literal, hl⟩ := hl.exists_string
    have ⟨_, colon, hl⟩ := hl.exists_punctuation
    have ⟨_, _, blanks, value, hl⟩ := hv.sound hl
    have ⟨after, closed, hl⟩ := hl.exists_punctuation
    exact ⟨after, .inr ⟨_, .one (.colon named literal colon) blanks value closed, .here⟩, hl⟩
  | _, _, _, _, _, .cons hv hm, hl => by
    have ⟨_, _, named, literal, hl⟩ := hl.exists_string
    have ⟨_, colon, hl⟩ := hl.exists_punctuation
    have ⟨_, _, blanks, value, hl⟩ := hv.sound hl
    have ⟨_, comma, hl⟩ := hl.exists_punctuation
    have key := Key.colon named literal colon
    obtain ⟨after, ⟨rfl, closed⟩ | ⟨last, members, closes⟩, hl⟩ := hm.sound hl
    · exact ⟨after, .inr ⟨_, .one key blanks value comma, .comma closed⟩, hl⟩
    · exact ⟨after, .inr ⟨last, .more key blanks value comma members, closes⟩, hl⟩

theorem ReadsItems.sound : ∀ {n : Nat} {cs : List Char} {ls rest : List LocatedLexeme}
    {items : List Json}, ReadsItems n ls items rest → LexesTo length cs ls →
      ∃ after, ((items = [] ∧ Trivia cs (']' :: after)) ∨
        ∃ last, Items length cs items last ∧ Closes ']' last after) ∧ LexesTo length after rest
  | _, _, _, _, _, .nil, hl => by
    have ⟨after, closed, hl⟩ := hl.exists_punctuation
    exact ⟨after, .inl ⟨rfl, closed⟩, hl⟩
  | _, _, _, _, _, .last hv, hl => by
    have ⟨_, _, blanks, value, hl⟩ := hv.sound hl
    have ⟨after, closed, hl⟩ := hl.exists_punctuation
    exact ⟨after, .inr ⟨_, .one blanks value closed, .here⟩, hl⟩
  | _, _, _, _, _, .cons hv hi, hl => by
    have ⟨_, _, blanks, value, hl⟩ := hv.sound hl
    have ⟨_, comma, hl⟩ := hl.exists_punctuation
    obtain ⟨after, ⟨rfl, closed⟩ | ⟨last, items, closes⟩, hl⟩ := hi.sound hl
    · exact ⟨after, .inr ⟨_, .one blanks value comma, .comma closed⟩, hl⟩
    · exact ⟨after, .inr ⟨last, .more blanks value comma items, closes⟩, hl⟩

end

theorem Grammar.Key.lexesTo {key : StringLiteral} (h : Key length cs key rest)
    (hl : LexesTo length cs ls) : ∃ start colon tail,
      ls = ⟨start, .string key⟩ :: ⟨colon, .punctuation .colon⟩ :: tail ∧ LexesTo length rest tail := by
  cases h with
  | colon named literal blanks =>
    obtain ⟨start, _, rfl, h₁⟩ := literal.lexesTo (named.lexesTo hl)
    obtain ⟨colon, tail, rfl, h₂⟩ := lexesTo_punctuation (p := .colon) (blanks.lexesTo h₁)
    exact ⟨start, colon, tail, rfl, h₂⟩

theorem Grammar.Closes.lexesTo {p : Punctuation} (h : Closes p.char cs rest)
    (hl : LexesTo length cs ls) : ∃ tail, LexesTo length rest tail ∧
      ((∃ start, ls = ⟨start, .punctuation p⟩ :: tail) ∨
        ∃ comma start, ls = ⟨comma, .punctuation .comma⟩ :: ⟨start, .punctuation p⟩ :: tail) := by
  cases h with
  | here =>
    obtain ⟨start, tail, rfl, h₁⟩ := lexesTo_punctuation hl
    exact ⟨tail, h₁, .inl ⟨start, rfl⟩⟩
  | comma blanks =>
    obtain ⟨comma, _, rfl, h₁⟩ := lexesTo_punctuation (p := .comma) hl
    obtain ⟨start, tail, rfl, h₂⟩ := lexesTo_punctuation (blanks.lexesTo h₁)
    exact ⟨tail, h₂, .inr ⟨comma, start, rfl⟩⟩

theorem Grammar.Closes.ends {p : Punctuation} (h : Closes p.char cs rest) : Ends cs := by
  cases h with
  | here => exact p.ends
  | comma => exact Punctuation.comma.ends

mutual

-- A value of the grammar is read off the lexemes. Twice as many steps as it has lexemes are enough.
theorem Grammar.Value.reads : ∀ {cs rest : List Char} {ls : List LocatedLexeme} {value : Json},
    Grammar.Value length cs value rest → Ends rest → LexesTo length cs ls →
      ∃ left, LexesTo length rest left ∧ left.length < ls.length ∧
        ∀ n, 2 * ls.length ≤ n + 1 + 2 * left.length → ReadsValue n ls value left
  | _, _, _, _, .string literal, _, h => by
    obtain ⟨_, left, rfl, h₁⟩ := literal.lexesTo h
    refine ⟨left, h₁, by simp, fun n hn => ?_⟩
    obtain ⟨n, rfl⟩ := Nat.exists_eq_add_of_le' (show 1 ≤ n by grind)
    exact .string
  | _, _, _, _, .scalar scalar, ends, h => by
    obtain ⟨_, left, rfl, h₁⟩ := scalar.lexesTo ends h
    refine ⟨left, h₁, by simp, fun n hn => ?_⟩
    obtain ⟨n, rfl⟩ := Nat.exists_eq_add_of_le' (show 1 ≤ n by grind)
    exact .scalar
  | _, _, _, _, .emptyObject blanks, _, h => by
    obtain ⟨_, _, rfl, h₁⟩ := lexesTo_punctuation (p := .openObject) h
    obtain ⟨_, left, rfl, h₂⟩ := lexesTo_punctuation (p := .closeObject) (blanks.lexesTo h₁)
    refine ⟨left, h₂, by grind, fun n hn => ?_⟩
    obtain ⟨n, rfl⟩ := Nat.exists_eq_add_of_le' (show 2 ≤ n by grind)
    exact .object .nil
  | _, _, _, _, .object members closes, _, h => by
    obtain ⟨_, _, rfl, h₁⟩ := lexesTo_punctuation (p := .openObject) h
    have ⟨left, h₂, shorter, reads⟩ := members.reads closes h₁
    refine ⟨left, h₂, by grind, fun n hn => ?_⟩
    obtain ⟨n, rfl⟩ := Nat.exists_eq_add_of_le' (show 1 ≤ n by grind)
    exact .object (reads n (by grind))
  | _, _, _, _, .emptyArray blanks, _, h => by
    obtain ⟨_, _, rfl, h₁⟩ := lexesTo_punctuation (p := .openArray) h
    obtain ⟨_, left, rfl, h₂⟩ := lexesTo_punctuation (p := .closeArray) (blanks.lexesTo h₁)
    refine ⟨left, h₂, by grind, fun n hn => ?_⟩
    obtain ⟨n, rfl⟩ := Nat.exists_eq_add_of_le' (show 2 ≤ n by grind)
    exact .array .nil
  | _, _, _, _, .array items closes, _, h => by
    obtain ⟨_, _, rfl, h₁⟩ := lexesTo_punctuation (p := .openArray) h
    have ⟨left, h₂, shorter, reads⟩ := items.reads closes h₁
    refine ⟨left, h₂, by grind, fun n hn => ?_⟩
    obtain ⟨n, rfl⟩ := Nat.exists_eq_add_of_le' (show 1 ≤ n by grind)
    exact .array (reads n (by grind))

theorem Grammar.Members.reads : ∀ {cs last rest : List Char} {ls : List LocatedLexeme}
    {members : List (StringLiteral × Json)},
    Members length cs members last → Closes '\x7d' last rest → LexesTo length cs ls →
      ∃ left, LexesTo length rest left ∧ left.length < ls.length ∧
        ∀ n, 2 * ls.length ≤ n + 1 + 2 * left.length → ReadsMembers n ls members left
  | _, _, _, _, _, .one key blanks value closed, closes, h => by
    obtain ⟨_, _, _, rfl, h₁⟩ := key.lexesTo h
    have ⟨_, h₂, shorter, reads⟩ :=
      value.reads (closed.ends (closes.ends (p := .closeObject))) (blanks.lexesTo h₁)
    obtain ⟨left, h₃, ⟨_, rfl⟩ | ⟨_, _, rfl⟩⟩ :=
      closes.lexesTo (p := .closeObject) (closed.lexesTo h₂)
    · refine ⟨left, h₃, by grind, fun n hn => ?_⟩
      obtain ⟨n, rfl⟩ := Nat.exists_eq_add_of_le' (show 1 ≤ n by grind)
      exact .last (reads n (by grind))
    · refine ⟨left, h₃, by grind, fun n hn => ?_⟩
      obtain ⟨n, rfl⟩ := Nat.exists_eq_add_of_le' (show 2 ≤ n by grind)
      exact .cons (reads (n + 1) (by grind)) .nil
  | _, _, _, _, _, .more key blanks value comma members, closes, h => by
    obtain ⟨_, _, _, rfl, h₁⟩ := key.lexesTo h
    have ⟨_, h₂, shorter, reads⟩ :=
      value.reads (comma.ends Punctuation.comma.ends) (blanks.lexesTo h₁)
    obtain ⟨_, _, rfl, h₃⟩ := lexesTo_punctuation (p := .comma) (comma.lexesTo h₂)
    have ⟨left, h₄, shorter', others⟩ := members.reads closes h₃
    refine ⟨left, h₄, by grind, fun n hn => ?_⟩
    obtain ⟨n, rfl⟩ := Nat.exists_eq_add_of_le' (show 1 ≤ n by grind)
    exact .cons (reads n (by grind)) (others n (by grind))

theorem Grammar.Items.reads : ∀ {cs last rest : List Char} {ls : List LocatedLexeme}
    {items : List Json},
    Items length cs items last → Closes ']' last rest → LexesTo length cs ls →
      ∃ left, LexesTo length rest left ∧ left.length < ls.length ∧
        ∀ n, 2 * ls.length ≤ n + 1 + 2 * left.length → ReadsItems n ls items left
  | _, _, _, _, _, .one blanks value closed, closes, h => by
    have ⟨_, h₁, shorter, reads⟩ :=
      value.reads (closed.ends (closes.ends (p := .closeArray))) (blanks.lexesTo h)
    obtain ⟨left, h₂, ⟨_, rfl⟩ | ⟨_, _, rfl⟩⟩ :=
      closes.lexesTo (p := .closeArray) (closed.lexesTo h₁)
    · refine ⟨left, h₂, by grind, fun n hn => ?_⟩
      obtain ⟨n, rfl⟩ := Nat.exists_eq_add_of_le' (show 1 ≤ n by grind)
      exact .last (reads n (by grind))
    · refine ⟨left, h₂, by grind, fun n hn => ?_⟩
      obtain ⟨n, rfl⟩ := Nat.exists_eq_add_of_le' (show 2 ≤ n by grind)
      exact .cons (reads (n + 1) (by grind)) .nil
  | _, _, _, _, _, .more blanks value comma items, closes, h => by
    have ⟨_, h₁, shorter, reads⟩ :=
      value.reads (comma.ends Punctuation.comma.ends) (blanks.lexesTo h)
    obtain ⟨_, _, rfl, h₂⟩ := lexesTo_punctuation (p := .comma) (comma.lexesTo h₁)
    have ⟨left, h₃, shorter', others⟩ := items.reads closes h₂
    refine ⟨left, h₃, by grind, fun n hn => ?_⟩
    obtain ⟨n, rfl⟩ := Nat.exists_eq_add_of_le' (show 1 ≤ n by grind)
    exact .cons (reads n (by grind)) (others n (by grind))

end

theorem LexesTo.placeOf_eq_iff (h : LexesTo length cs ls) : placeOf ls = length ↔ Trivia cs [] := by
  obtain ⟨offset, rfl, rfl⟩ := h
  have le := byteLength_skipTrivia_le cs
  have skipped := trivia_skipTrivia cs
  rw [placeOf_lexemesFrom]
  constructor
  case mp =>
    intro last
    have none : skipTrivia cs = [] := Text.byteLength_eq_zero_iff.mp (by omega)
    rwa [none] at skipped
  case mpr =>
    intro blanks
    rw [blanks.skipTrivia_eq, skipTrivia, Text.byteLength_nil, Nat.sub_zero]

theorem parse_eq_ok_iff {text : String} {root : Json} :
    parse text = .ok root ↔ Document text.toList root := by
  have whole : LexesTo (Text.byteLength text.toList) text.toList (lexemes text.toList) :=
    ⟨0, Nat.zero_add _, rfl⟩
  constructor
  case mp =>
    intro h
    have ⟨rest, hr, stop⟩ := readsValue_of_parse h
    have ⟨_, _, before, value, left⟩ := hr.sound whole
    exact .value before value (left.placeOf_eq_iff.mp stop)
  case mpr =>
    rintro ⟨before, value, behind⟩
    have ends : Ends [] := by simp [Ends]
    have ⟨rest, left, _, reads⟩ := value.reads (behind.ends ends) (before.lexesTo whole)
    exact parse_of_readsValue (reads _ (by omega)) (left.placeOf_eq_iff.mpr behind)

-- The reader accepts the documents of the grammar, with the tree that the grammar gives them: one
-- member or item of the tree for each that stands in the text, in the order of the text. So are all
-- strings, names among them.
theorem accepts_documents (text : String) (root : Json) :
    (parse text = .ok root ↔ Document text.toList root) ∧
      (Document text.toList root →
        (marks [] root).Pairwise fun m n => m.1.span.Precedes n.1.span) :=
  ⟨parse_eq_ok_iff, fun h => separated_marks (parse_eq_ok_iff.mpr h)⟩

theorem accepts_documents_trailing_comma :
    let root : Json := .array [.other, .string ⟨"a", .ofLength 5 1, false⟩]
    parse "[1, \"a\",]" = .ok root ∧ Document "[1, \"a\",]".toList root ∧
      (marks [] root).Pairwise fun m n => m.1.span.Precedes n.1.span := by
  intro root
  have number : Scalar ['1'] := .number (by simp) (List.forall_mem_singleton.mpr (.inl rfl))
  have letter : Quoted ['a'] ['a'] := .plain (by unfold IsPlain; decide) .nil
  have last : Items 9 " \"a\",]".toList [.string ⟨"a", .ofLength 5 1, false⟩] [',', ']'] :=
    .one (.blank (by decide) .done) (.string (.quotes letter)) .done
  have items := Items.more (Trivia.done) (.scalar number) .done last
  have document : Document "[1, \"a\",]".toList root :=
    .value .done (.array items (.comma .done)) .done
  have ⟨accepted, ordered⟩ := accepts_documents "[1, \"a\",]" root
  exact ⟨accepted.mpr document, document, ordered document⟩

end Repin.Json
