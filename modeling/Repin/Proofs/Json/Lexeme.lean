import Repin.Proofs.Json.Grammar
import Repin.Proofs.Patch.Splice
/-!
# Lexemes of an edited text

Blanks, strings and scalars are read as the grammar has them. What is read at the start of a text ends
at a place that does not depend on what follows. So the lexemes of a text are found again when the
contents of some of its strings are replaced.
-/
namespace Repin.Json

open Grammar

variable {cs rest after content value : List Char} {c : Char}

theorem breaks_append {trivia : List Char} (hc : isSpace c = false)
    (h : Breaks (trivia ++ c :: rest)) (more : List Char) : Breaks (trivia ++ c :: more) := by
  have space : isSpace '\n' = true ∧ isSpace '\r' = true := by decide
  cases trivia with
  | nil =>
    obtain h | ⟨h, _⟩ := h <;> cases h <;> simp_all
  | cons d trivia =>
    cases trivia with
    | nil =>
      obtain h | ⟨_, h⟩ := h
      · exact .inl h
      · cases h
        simp_all
    | cons => exact h

theorem afterLineComment?_of_breaks (h : Breaks cs) : afterLineComment? cs = some cs := by
  unfold Breaks at h
  cases cs with
  | nil => simp at h
  | cons c cs =>
    cases cs <;> simp at h
    all_goals obtain rfl | ⟨rfl, rfl⟩ := h <;> simp [afterLineComment?]

theorem afterLineComment?_eq_some_iff : afterLineComment? cs = some after ↔
    ∃ body, cs = body ++ after ∧ '\n' ∉ body ∧ '\r' ∉ body ∧ (after = [] ∨ Breaks after) := by
  constructor
  case mp =>
    intro h
    fun_induction afterLineComment? cs
    case case1 =>
      cases h
      exact ⟨[], by simp⟩
    case case2 =>
      cases h
      exact ⟨[], by simp [Breaks]⟩
    case case3 =>
      cases h
      exact ⟨[], by simp [Breaks]⟩
    case case4 => cases h
    case case5 d ds newline crlf cr ih =>
      obtain ⟨body, heq, lf, cr', ends⟩ := ih h
      refine ⟨d :: body, by simp [heq], ?_, ?_, ends⟩
      all_goals simp_all [eq_comm]
  case mpr =>
    rintro ⟨body, rfl, lf, cr, ends⟩
    induction body with
    | nil =>
      obtain rfl | breaks := ends
      · rfl
      · exact afterLineComment?_of_breaks breaks
    | cons d body ih =>
      simp only [List.mem_cons, not_or] at lf cr
      rw [List.cons_append, afterLineComment?]
      case _ => exact ih lf.right cr.right
      all_goals grind

theorem afterBlockComment?_eq_some_iff : afterBlockComment? cs = some after ↔
    ∃ body, cs = body ++ '*' :: '/' :: after ∧ ¬ ['*', '/'] <:+: body := by
  constructor
  case mp =>
    intro h
    fun_induction afterBlockComment? cs
    case case1 => cases h
    case case2 =>
      cases h
      exact ⟨[], by simp⟩
    case case3 d ds other ih =>
      obtain ⟨body, heq, first⟩ := ih h
      refine ⟨d :: body, by simp [heq], ?_⟩
      rw [List.infix_cons_iff]
      rintro (⟨more, hm⟩ | inside)
      · grind
      · exact first inside
  case mpr =>
    rintro ⟨body, rfl, first⟩
    induction body with
    | nil => simp [afterBlockComment?]
    | cons d body ih =>
      rw [List.infix_cons_iff, not_or] at first
      rw [List.cons_append, afterBlockComment?]
      case _ => exact ih first.right
      case _ =>
        rintro rest rfl hr
        cases body with
        | nil => cases hr
        | cons e body =>
          cases hr
          exact first.left ⟨body, rfl⟩

theorem isSpace_iff_mem : isSpace c = true ↔ c ∈ [' ', '\t', '\r', '\n'] := by
  simp [isSpace, or_assoc]

theorem skipTrivia_space (h : isSpace c) : skipTrivia (c :: rest) = skipTrivia rest := by
  have slash : c ≠ '/' := by
    rintro rfl
    cases h
  rw [skipTrivia]
  case _ => simp [h]
  all_goals simp [slash]

theorem skipTrivia_stop (h : isSpace c = false) (hs : c ≠ '/') : skipTrivia (c :: rest) = c :: rest := by
  rw [skipTrivia]
  case _ => simp [h]
  all_goals simp [hs]

theorem skipTrivia_line (h : afterLineComment? rest = some after) :
    skipTrivia ('/' :: '/' :: rest) = skipTrivia after := by
  rw [skipTrivia]
  split <;> simp_all

theorem skipTrivia_block (h : afterBlockComment? rest = some after) :
    skipTrivia ('/' :: '*' :: rest) = skipTrivia after := by
  rw [skipTrivia]
  split <;> simp_all

theorem trivia_skipTrivia (cs : List Char) : Trivia cs (skipTrivia cs) := by
  fun_induction skipTrivia cs
  case case2 rest after ha ih =>
    obtain ⟨body, rfl, lf, cr, ends⟩ := afterLineComment?_eq_some_iff.mp ha
    exact .line lf cr ends ih
  case case4 rest after ha ih =>
    obtain ⟨body, rfl, first⟩ := afterBlockComment?_eq_some_iff.mp ha
    exact .block first ih
  case case6 space ih => exact .blank (isSpace_iff_mem.mp space) ih
  all_goals exact .done

theorem Grammar.Trivia.skipTrivia_eq (h : Trivia cs rest) : skipTrivia cs = skipTrivia rest := by
  induction h with
  | done => rfl
  | blank space _ ih => rw [skipTrivia_space (isSpace_iff_mem.mpr space), ih]
  | line lf cr ends _ ih =>
    rw [skipTrivia_line (afterLineComment?_eq_some_iff.mpr ⟨_, rfl, lf, cr, ends⟩), ih]
  | block first _ ih =>
    rw [skipTrivia_block (afterBlockComment?_eq_some_iff.mpr ⟨_, rfl, first⟩), ih]

-- Blanks and comments end where they end, whatever comes behind the character that ends them.
theorem Grammar.Trivia.exists_append (h : Trivia cs (c :: rest)) (hc : isSpace c = false) :
    ∃ trivia, cs = trivia ++ c :: rest ∧ ∀ more, Trivia (trivia ++ c :: more) (c :: more) := by
  generalize hr : c :: rest = text at h
  induction h with
  | done => exact ⟨[], by simp, fun _ => .done⟩
  | @blank d _ _ space _ ih =>
    have ⟨trivia, heq, found⟩ := ih hr
    exact ⟨d :: trivia, by simp [heq], fun more => .blank space (found more)⟩
  | @line body _ _ lf cr ends _ ih =>
    have ⟨trivia, heq, found⟩ := ih hr
    refine ⟨'/' :: '/' :: (body ++ trivia), by simp [heq], fun more => ?_⟩
    simp only [List.cons_append, List.append_assoc]
    refine .line lf cr (.inr ?_) (found more)
    obtain none | breaks := ends
    · simp [none, ← hr] at heq
    · rw [heq, ← hr] at breaks
      exact breaks_append hc breaks more
  | @block body _ _ first _ ih =>
    have ⟨trivia, heq, found⟩ := ih hr
    refine ⟨'/' :: '*' :: (body ++ '*' :: '/' :: trivia), by simp [heq], fun more => ?_⟩
    simp only [List.cons_append, List.append_assoc]
    exact .block first (found more)

theorem skipTrivia_append (h : skipTrivia cs = c :: rest) (hc : isSpace c = false) (hs : c ≠ '/') :
    ∃ trivia, cs = trivia ++ c :: rest ∧
      ∀ more, skipTrivia (trivia ++ c :: more) = c :: more := by
  have skipped := trivia_skipTrivia cs
  rw [h] at skipped
  have ⟨trivia, heq, found⟩ := skipped.exists_append hc
  exact ⟨trivia, heq, fun more => by rw [(found more).skipTrivia_eq, skipTrivia_stop hc hs]⟩

theorem simpleEscape?_eq_some_iff {e : Char} : simpleEscape? c = some e ↔ (c, e) ∈ escapes := by
  constructor
  case mp =>
    intro h
    unfold simpleEscape? at h
    split at h <;> cases h <;> decide
  case mpr =>
    intro h
    simp only [escapes, List.mem_cons, List.not_mem_nil, or_false, Prod.mk.injEq] at h
    obtain h | h | h | h | h | h | h | h := h <;> obtain ⟨rfl, rfl⟩ := h <;> rfl

theorem hexValue?_eq_some_iff {n : Nat} : hexValue? c = some n ↔ HexDigit c n := by
  have order (a b : Char) : a ≤ b ↔ a.toNat ≤ b.toNat := UInt32.le_iff_toNat_le
  have digit : c.isDigit = true ↔ '0' ≤ c ∧ c ≤ '9' := by
    simp only [Char.isDigit, Bool.and_eq_true, decide_eq_true_eq]
    rfl
  have codes : '0'.toNat = 48 ∧ '9'.toNat = 57 ∧ 'a'.toNat = 97 ∧ 'f'.toNat = 102 ∧
      'A'.toNat = 65 ∧ 'F'.toNat = 70 := by decide
  simp only [hexValue?, digit]
  constructor
  case mp =>
    intro h
    split at h
    case isTrue digit =>
      cases h
      exact .digit digit.left digit.right
    case isFalse =>
      split at h
      case isTrue lower =>
        have first := (order _ _).mp lower.left
        have value : c.toNat - 87 = c.toNat - 'a'.toNat + 10 := by omega
        cases h
        exact value ▸ .lower lower.left lower.right
      case isFalse =>
        split at h
        case isTrue upper =>
          have first := (order _ _).mp upper.left
          have value : c.toNat - 55 = c.toNat - 'A'.toNat + 10 := by omega
          cases h
          exact value ▸ .upper upper.left upper.right
        case isFalse => cases h
  case mpr =>
    intro h
    simp only [order, codes]
    cases h with
    | digit first last =>
      rw [order] at first last
      rw [if_pos (by omega), codes.left]
    | lower first last =>
      rw [order] at first last
      rw [if_neg (by omega), if_pos (by omega), Option.some.injEq]
      omega
    | upper first last =>
      rw [order] at first last
      rw [if_neg (by omega), if_neg (by omega), if_pos (by omega), Option.some.injEq]
      omega

theorem unicodeEscape?_eq_some_iff {a b c d e : Char} : unicodeEscape? a b c d = some e ↔
    ∃ i j k l, HexDigit a i ∧ HexDigit b j ∧ HexDigit c k ∧ HexDigit d l ∧
      e = charOfCode (((i * 16 + j) * 16 + k) * 16 + l) := by
  simp [unicodeEscape?, Option.bind_eq_some_iff, hexValue?_eq_some_iff, @eq_comm _ e]

theorem readString_plain {body : StringBody} (hc : IsPlain c) (h : readString rest = .ok body) :
    readString (c :: rest) = .ok (body.push [c] c) := by
  have ⟨quote, backslash, control⟩ := hc
  rw [readString]
  case _ => simp [control, h]
  all_goals simp [quote, backslash]

-- A string ends at its closing quote.
theorem quoted_of_readString {body : StringBody} (h : readString cs = .ok body) :
    cs = body.content ++ '"' :: body.rest ∧ Quoted body.content body.value := by
  fun_induction readString cs generalizing body
  all_goals cases h
  case case2.refl => exact ⟨rfl, .nil⟩
  case case4.refl a b c d rest e he body hb ih =>
    obtain ⟨heq, quoted⟩ := ih hb
    obtain ⟨i, j, k, l, ha, hb, hc, hd, rfl⟩ := unicodeEscape?_eq_some_iff.mp he
    exact ⟨by simp [StringBody.push, ← heq], .unicode ha hb hc hd quoted⟩
  case case8.refl c rest notHex notU e he body hb ih =>
    obtain ⟨heq, quoted⟩ := ih hb
    exact ⟨by simp [StringBody.push, ← heq], .escape (simpleEscape?_eq_some_iff.mp he) quoted⟩
  case case12.refl c rest quote _ _ single last control body hb ih =>
    obtain ⟨heq, quoted⟩ := ih hb
    have backslash : c ≠ '\\' := by
      intro hc
      cases rest with
      | nil => exact last hc rfl
      | cons d ds => exact single d ds hc rfl
    exact ⟨by simp [StringBody.push, ← heq], .plain ⟨quote, backslash, control⟩ quoted⟩

theorem Grammar.Quoted.readString_eq (h : Quoted content value) (more : List Char) :
    readString (content ++ '"' :: more) = .ok ⟨content, value, more⟩ := by
  induction h with
  | nil => simp [readString]
  | plain hc _ ih => exact readString_plain hc ih
  | @escape c e content value he _ ih =>
    simp only [List.cons_append]
    rw [readString]
    case _ => simp [simpleEscape?_eq_some_iff.mpr he, ih, StringBody.push]
    case _ =>
      rintro a b c d rest rfl
      simp [escapes] at he
    case _ =>
      rintro rfl
      simp [escapes] at he
  | unicode ha hb hc hd _ ih =>
    have he := unicodeEscape?_eq_some_iff.mpr ⟨_, _, _, _, ha, hb, hc, hd, rfl⟩
    simp [readString, he, ih, StringBody.push]

-- Without escapes the value of a string is what stands between its quotes.
theorem Grammar.Quoted.eq_of_unescaped (h : Quoted content value) (hn : '\\' ∉ content) :
    value = content ∧ ∀ c ∈ content, IsPlain c := by
  induction h with
  | nil => simp
  | plain hc _ ih =>
    simp only [List.mem_cons, not_or] at hn
    have ⟨same, all⟩ := ih hn.right
    exact ⟨by rw [same], by simpa [hc] using all⟩
  | escape => simp at hn
  | unicode => simp at hn

theorem quoted_of_plain (h : ∀ c ∈ content, IsPlain c) : Quoted content content := by
  induction content with
  | nil => exact .nil
  | cons c content ih =>
    exact .plain (h c List.mem_cons_self) (ih fun d hd => h d (List.mem_cons_of_mem _ hd))

theorem isNumberChar_iff : isNumberChar c = true ↔ c.isDigit ∨ c ∈ ['-', '+', '.', 'e', 'E'] := by
  simp [isNumberChar, or_assoc]

theorem Grammar.Scalar.ne_nil (h : Scalar cs) : cs ≠ [] := by
  cases h with
  | word hn =>
    simp only [List.mem_cons, List.not_mem_nil, or_false] at hn
    obtain rfl | rfl | rfl := hn <;> simp
  | number ne _ => exact ne

theorem afterScalar?_number (h : isNumberChar c) :
    afterScalar? (c :: rest) = some (rest.dropWhile isNumberChar) := by
  unfold afterScalar?
  split
  case h_4 d ds _ _ _ heq =>
    cases heq
    rw [if_pos h]
  case h_5 heq => cases heq
  all_goals
    rename_i heq
    cases heq
    cases h

-- A number ends where the next character is none of its kind.
theorem afterScalar?_number_append (ne : cs ≠ []) (h : ∀ c ∈ cs, isNumberChar c)
    (hr : ∀ c ∈ rest.head?, isNumberChar c = false) : afterScalar? (cs ++ rest) = some rest := by
  cases cs with
  | nil => contradiction
  | cons c cs =>
    have ⟨first, others⟩ := List.forall_mem_cons.mp h
    have stop : rest.dropWhile isNumberChar = rest := by
      cases rest with
      | nil => rfl
      | cons d rest => exact List.dropWhile_cons_of_neg (by simpa using hr d)
    rw [List.cons_append, afterScalar?_number first, List.dropWhile_append_of_pos others, stop]

theorem Grammar.Scalar.afterScalar?_eq (h : Scalar cs)
    (hr : ∀ c ∈ rest.head?, isNumberChar c = false) : afterScalar? (cs ++ rest) = some rest := by
  cases h with
  | word hn =>
    simp only [List.mem_cons, List.not_mem_nil, or_false] at hn
    obtain rfl | rfl | rfl := hn <;> rfl
  | number ne all =>
    exact afterScalar?_number_append ne (fun c hc => isNumberChar_iff.mpr (all c hc)) hr

-- A scalar ends at the same place in front of a text that starts alike.
theorem afterScalar?_append (h : afterScalar? cs = some after) :
    ∃ scalar, cs = scalar ++ after ∧ Scalar scalar ∧
      ∀ more, more.head? = after.head? → afterScalar? (scalar ++ more) = some more := by
  unfold afterScalar? at h
  split at h
  case h_1 =>
    cases h
    exact ⟨"true".toList, rfl, .word (by simp), fun _ _ => rfl⟩
  case h_2 =>
    cases h
    exact ⟨"false".toList, rfl, .word (by simp), fun _ _ => rfl⟩
  case h_3 =>
    cases h
    exact ⟨"null".toList, rfl, .word (by simp), fun _ _ => rfl⟩
  case h_5 => cases h
  case h_4 d ds _ _ _ =>
    split at h
    case isFalse => cases h
    case isTrue number =>
      cases h
      have inside : ∀ e ∈ d :: ds.takeWhile isNumberChar, isNumberChar e :=
        List.forall_mem_cons.mpr ⟨number, List.all_eq_true.mp List.all_takeWhile⟩
      refine ⟨d :: ds.takeWhile isNumberChar, by simp,
        .number (by simp) fun e he => isNumberChar_iff.mp (inside e he), fun more hm => ?_⟩
      apply afterScalar?_number_append (by simp) inside
      have head := List.head?_dropWhile_not isNumberChar ds
      rw [← hm] at head
      intro e he
      rw [Option.mem_def.mp he] at head
      simpa using head

variable {offset : Nat} {trivia : List Char}

theorem byteLength_sub_append (as bs : List Char) :
    Text.byteLength (as ++ bs) - Text.byteLength bs = Text.byteLength as := by
  simp

theorem lexemesFrom_nil (h : skipTrivia cs = []) :
    lexemesFrom offset cs = [⟨offset + Text.byteLength cs, .nothing⟩] := by
  rw [lexemesFrom]
  dsimp only
  split <;> simp_all

theorem lexemesFrom_string {body : StringBody} (h : skipTrivia (trivia ++ '"' :: rest) = '"' :: rest)
    (hb : readString rest = .ok body) :
    lexemesFrom offset (trivia ++ '"' :: rest) = ⟨offset + Text.byteLength trivia, .string
        ⟨String.ofList body.value,
          .ofLength (offset + Text.byteLength trivia + 1) (Text.byteLength body.content),
          body.content.contains '\\'⟩⟩
      :: lexemesFrom (offset + Text.byteLength trivia + Text.byteLength body.content + 2) body.rest := by
  rw [lexemesFrom]
  dsimp only
  split
  case h_1 heq => cases h.symm.trans heq
  case h_2 heq =>
    cases h.symm.trans heq
    split
    case h_1 hr => cases hb.symm.trans hr
    case h_2 hr =>
      cases hb.symm.trans hr
      rw [h, byteLength_sub_append]
  case h_3 quote heq =>
    cases h.symm.trans heq
    exact absurd rfl quote

theorem lexemesFrom_broken {n : Nat} (h : skipTrivia cs = '"' :: rest)
    (hb : readString rest = .error n) :
    lexemesFrom offset cs
      = [⟨offset + (Text.byteLength cs - Text.byteLength ('"' :: rest)),
          .brokenString (offset + (Text.byteLength cs - Text.byteLength ('"' :: rest)) + 1 + n)⟩] := by
  rw [lexemesFrom]
  dsimp only
  split
  case h_1 heq => cases h.symm.trans heq
  case h_2 heq =>
    cases h.symm.trans heq
    split
    case h_1 hr =>
      cases hb.symm.trans hr
      rw [h]
    case h_2 hr => cases hb.symm.trans hr
  case h_3 quote heq =>
    cases h.symm.trans heq
    exact absurd rfl quote

theorem lexemesFrom_punctuation {p : Punctuation} (h : skipTrivia (trivia ++ c :: rest) = c :: rest)
    (hp : punctuation? c = some p) :
    lexemesFrom offset (trivia ++ c :: rest) = ⟨offset + Text.byteLength trivia, .punctuation p⟩
      :: lexemesFrom (offset + Text.byteLength trivia + c.utf8Size) rest := by
  rw [lexemesFrom]
  dsimp only
  split
  case h_1 heq => cases h.symm.trans heq
  case h_2 heq =>
    cases h.symm.trans heq
    cases hp
  case h_3 heq =>
    cases h.symm.trans heq
    split
    case h_1 hq =>
      cases hp.symm.trans hq
      rw [h, byteLength_sub_append]
    case h_2 hq => cases hp.symm.trans hq

theorem lexemesFrom_scalar {scalar : List Char}
    (h : skipTrivia (trivia ++ c :: (scalar ++ rest)) = c :: (scalar ++ rest)) (quote : c ≠ '"')
    (hp : punctuation? c = none) (hs : afterScalar? (c :: (scalar ++ rest)) = some rest) :
    lexemesFrom offset (trivia ++ c :: (scalar ++ rest)) = ⟨offset + Text.byteLength trivia, .scalar⟩
      :: lexemesFrom (offset + Text.byteLength trivia + Text.byteLength (c :: scalar)) rest := by
  have length : Text.byteLength (c :: (scalar ++ rest)) - Text.byteLength rest
      = Text.byteLength (c :: scalar) := byteLength_sub_append (c :: scalar) rest
  rw [lexemesFrom]
  dsimp only
  split
  case h_1 heq => cases h.symm.trans heq
  case h_2 heq =>
    cases h.symm.trans heq
    exact absurd rfl quote
  case h_3 heq =>
    cases h.symm.trans heq
    split
    case h_1 hq => cases hp.symm.trans hq
    case h_2 =>
      split
      case h_1 hr =>
        cases hs.symm.trans hr
        rw [h, byteLength_sub_append, length]
      case h_2 hr => cases hs.symm.trans hr

theorem lexemesFrom_nothing (h : skipTrivia cs = c :: rest) (quote : c ≠ '"')
    (hp : punctuation? c = none) (hs : afterScalar? (c :: rest) = none) :
    lexemesFrom offset cs
      = [⟨offset + (Text.byteLength cs - Text.byteLength (c :: rest)), .nothing⟩] := by
  rw [lexemesFrom]
  dsimp only
  split
  case h_1 heq => cases h.symm.trans heq
  case h_2 heq =>
    cases h.symm.trans heq
    exact absurd rfl quote
  case h_3 heq =>
    cases h.symm.trans heq
    split
    case h_1 hq => cases hp.symm.trans hq
    case h_2 =>
      split
      case h_1 hr => cases hs.symm.trans hr
      case h_2 => rw [h]

-- Blanks and comments in front of a character, whatever comes behind it.
def Skips (trivia : List Char) (c : Char) : Prop :=
  ∀ more, skipTrivia (trivia ++ c :: more) = c :: more

-- The lexemes of a text, together with the parts of the text that they were read from. Each part is
-- described so that it is read alike in front of another text.
inductive Lexes : Nat → List Char → List LocatedLexeme → Prop where
  | last {offset n : Nat} {cs : List Char} {lexeme : Nat → Lexeme} :
    (∀ offset, lexemesFrom offset cs = [⟨offset + n, lexeme offset⟩]) →
      ((∀ offset, lexeme offset = .nothing) ∨
        ∃ stop : Nat → Nat, ∀ offset, lexeme offset = .brokenString (stop offset)) →
        Lexes offset cs [⟨offset + n, lexeme offset⟩]
  | punctuation {offset : Nat} {trivia rest : List Char} {c : Char} {p : Punctuation}
      {ls : List LocatedLexeme} :
    Skips trivia c → punctuation? c = some p →
      Lexes (offset + Text.byteLength trivia + c.utf8Size) rest ls →
        Lexes offset (trivia ++ c :: rest) (⟨offset + Text.byteLength trivia, .punctuation p⟩ :: ls)
  | scalar {offset : Nat} {trivia scalar rest : List Char} {c : Char} {ls : List LocatedLexeme} :
    Skips trivia c → c ≠ '"' → punctuation? c = none →
      (∀ more, more.head? = rest.head? → afterScalar? (c :: (scalar ++ more)) = some more) →
        Lexes (offset + Text.byteLength trivia + Text.byteLength (c :: scalar)) rest ls →
          Lexes offset (trivia ++ c :: (scalar ++ rest))
            (⟨offset + Text.byteLength trivia, .scalar⟩ :: ls)
  | string {offset : Nat} {trivia content value rest : List Char} {ls : List LocatedLexeme} :
    Skips trivia '"' → Quoted content value →
      Lexes (offset + Text.byteLength trivia + Text.byteLength content + 2) rest ls →
        Lexes offset (trivia ++ '"' :: (content ++ '"' :: rest))
          (⟨offset + Text.byteLength trivia, .string ⟨String.ofList value,
            .ofLength (offset + Text.byteLength trivia + 1) (Text.byteLength content),
            content.contains '\\'⟩⟩ :: ls)

theorem not_isSpace_of_punctuation? {p : Punctuation} (h : punctuation? c = some p) :
    isSpace c = false ∧ c ≠ '/' := by
  unfold punctuation? at h
  split at h
  all_goals first | cases h; decide | cases h

theorem not_isSpace_of_isNumberChar (h : isNumberChar c) : isSpace c = false ∧ c ≠ '/' := by
  constructor
  case left =>
    cases hs : isSpace c
    case false => rfl
    case true =>
      simp only [isSpace, Bool.or_eq_true, beq_iff_eq] at hs
      obtain ((rfl | rfl) | rfl) | rfl := hs <;> cases h
  case right =>
    rintro rfl
    cases h

theorem not_isSpace_of_afterScalar? {after : List Char} (h : afterScalar? (c :: rest) = some after) :
    isSpace c = false ∧ c ≠ '/' := by
  unfold afterScalar? at h
  split at h
  case h_4 heq =>
    cases heq
    split at h
    case isTrue number => exact not_isSpace_of_isNumberChar number
    case isFalse => cases h
  case h_5 heq => cases heq
  all_goals
    rename_i heq
    cases heq
    decide

theorem lexes (offset : Nat) (cs : List Char) : Lexes offset cs (lexemesFrom offset cs) := by
  fun_induction lexemesFrom offset cs
  case case1 offset cs text start h =>
    have last := @Lexes.last offset _ _ _ (fun _ => lexemesFrom_nil h) (.inl fun _ => rfl)
    simpa [start, h] using last
  case case2 offset cs text start rest h n hb =>
    have last := @Lexes.last offset _ _ _ (fun _ => lexemesFrom_broken h hb) (.inr ⟨_, fun _ => rfl⟩)
    simpa [start, h] using last
  case case3 offset cs text start rest h body hb length literal ih =>
    have ⟨trivia, heq, skips⟩ := skipTrivia_append h (by decide) (by decide)
    have ⟨hr, quoted⟩ := quoted_of_readString hb
    have place : start = offset + Text.byteLength trivia := by
      simp only [start, h, heq, byteLength_sub_append]
    subst heq
    simp only [literal, length, place] at ih ⊢
    nth_rewrite 1 [hr]
    exact .string skips quoted ih
  case case4 offset cs text start c rest quote h p hp ih =>
    have ⟨space, slash⟩ := not_isSpace_of_punctuation? hp
    have ⟨trivia, heq, skips⟩ := skipTrivia_append h space slash
    have place : start = offset + Text.byteLength trivia := by
      simp only [start, h, heq, byteLength_sub_append]
    subst heq
    rw [place] at ih ⊢
    exact .punctuation skips hp ih
  case case5 offset cs text start c rest quote h hp after hs ih =>
    have ⟨space, slash⟩ := not_isSpace_of_afterScalar? hs
    have ⟨trivia, heq, skips⟩ := skipTrivia_append h space slash
    have ⟨scalar, hc, isScalar, found⟩ := afterScalar?_append hs
    have place : start = offset + Text.byteLength trivia := by
      simp only [start, h, heq, byteLength_sub_append]
    cases scalar with
    | nil => exact absurd rfl isScalar.ne_nil
    | cons d scalar =>
      obtain ⟨rfl, rfl⟩ : c = d ∧ rest = scalar ++ after := by simpa using hc
      have length := byteLength_sub_append (c :: scalar) after
      simp only [List.cons_append] at length
      subst heq
      rw [place, length] at ih ⊢
      exact .scalar skips quote hp found ih
  case case6 offset cs text start c rest quote h hp hs =>
    have last := @Lexes.last offset _ _ _ (fun _ => lexemesFrom_nothing h quote hp hs)
      (.inl fun _ => rfl)
    simpa [start, h] using last

theorem Lexes.lexemesFrom_eq {ls : List LocatedLexeme} (h : Lexes offset cs ls) :
    lexemesFrom offset cs = ls := by
  induction h with
  | last found _ => exact found _
  | punctuation skips hp _ ih => rw [lexemesFrom_punctuation (skips _) hp, ih]
  | scalar skips quote hp found _ ih =>
    rw [lexemesFrom_scalar (skips _) quote hp (found _ rfl), ih]
  | string skips quoted _ ih => rw [lexemesFrom_string (skips _) (quoted.readString_eq _), ih]

end Repin.Json
