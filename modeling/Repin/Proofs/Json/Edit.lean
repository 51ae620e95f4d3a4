import Repin.Proofs.Json.Lexeme
import Repin.Proofs.Locate.Change
/-!
# Literals and their edits

The strings of a text lie in order, with at least a quote between any two. Edits within strings that
have no escapes leave all other lexemes as they are.
-/
namespace Repin.Json

open Grammar

variable {offset : Nat} {cs : List Char} {ls : List LocatedLexeme} {l : StringLiteral}

def Lexeme.string? : Lexeme → Option StringLiteral
  | .string l => some l
  | .punctuation _ | .scalar | .brokenString _ | .nothing => none

def literals (ls : List LocatedLexeme) : List StringLiteral :=
  ls.filterMap (·.lexeme.string?)

-- A literal lies in a text, and its value is the text between its quotes unless there are escapes.
structure StringLiteral.LiesIn (offset : Nat) (cs : List Char) (l : StringLiteral) : Prop where
  start : offset < l.span.start
  content : ∃ before content after, cs = before ++ (content ++ after) ∧
    offset + Text.byteLength before = l.span.start ∧
    l.span.start + Text.byteLength content = l.span.stop ∧
    (l.escaped = false → content = l.value.toList ∧ ∀ c ∈ content, IsPlain c)

-- A literal stands in a text between two quotes, and tells whether there is a backslash between them.
inductive StringLiteral.Enclosed (offset : Nat) : List Char → StringLiteral → Prop where
  | quotes {before content after value : List Char} {span : Span} : Quoted content value →
    span = .ofLength (offset + Text.byteLength before + 1) (Text.byteLength content) →
      Enclosed offset (before ++ '"' :: (content ++ '"' :: after))
        ⟨String.ofList value, span, content.contains '\\'⟩

theorem StringLiteral.Enclosed.append {next : Nat} (h : l.Enclosed next cs) {front : List Char}
    (hn : next = offset + Text.byteLength front) : l.Enclosed offset (front ++ cs) := by
  obtain ⟨quoted, place⟩ := h
  rw [← List.append_assoc]
  exact .quotes quoted (by rw [place, hn, Text.byteLength_append, Nat.add_assoc offset])

theorem StringLiteral.Enclosed.liesIn (h : l.Enclosed offset cs) : l.LiesIn offset cs := by
  have quote : ('"' : Char).utf8Size = 1 := by decide
  obtain @⟨before, content, after, value, _, quoted, rfl⟩ := h
  refine ⟨?_, before ++ ['"'], content, '"' :: after, by simp, ?_, rfl, ?_⟩
  case _ =>
    simp only [Span.ofLength]
    omega
  case _ => simp [Span.ofLength, quote, Nat.add_assoc]
  case _ =>
    intro unescaped
    obtain ⟨same, all⟩ := quoted.eq_of_unescaped (by simpa using unescaped)
    exact ⟨by simp [same], all⟩

@[simp] theorem literals_punctuation {start : Nat} {p : Punctuation} :
    literals (⟨start, .punctuation p⟩ :: ls) = literals ls := rfl

@[simp] theorem literals_scalar {start : Nat} : literals (⟨start, .scalar⟩ :: ls) = literals ls := rfl

@[simp] theorem literals_string {start : Nat} :
    literals (⟨start, .string l⟩ :: ls) = l :: literals ls := rfl

theorem literals_last {start : Nat} {lexeme : Nat → Lexeme}
    (h : (∀ offset, lexeme offset = .nothing) ∨
      ∃ stop : Nat → Nat, ∀ offset, lexeme offset = .brokenString (stop offset)) :
    literals [⟨start, lexeme offset⟩] = [] := by
  obtain h | ⟨stop, h⟩ := h <;> rw [h] <;> rfl

namespace Lexes

theorem enclosed (h : Lexes offset cs ls) : ∀ l ∈ literals ls, l.Enclosed offset cs := by
  induction h with
  | @last offset _ _ _ _ other => simp [literals_last other]
  | @punctuation offset trivia rest c p ls skips hp tail ih =>
    intro l hl
    have inside : l.Enclosed offset ((trivia ++ [c]) ++ rest) :=
      (ih l hl).append (by simp [Nat.add_assoc])
    simpa using inside
  | @scalar offset trivia scalar rest c ls skips quote hp found tail ih =>
    intro l hl
    have inside : l.Enclosed offset ((trivia ++ c :: scalar) ++ rest) :=
      (ih l hl).append (by simp [Nat.add_assoc])
    simpa using inside
  | @string offset trivia content value rest ls skips quoted tail ih =>
    intro l hl
    have quote : ('"' : Char).utf8Size = 1 := by decide
    obtain rfl | hl := List.mem_cons.mp hl
    · exact .quotes quoted rfl
    · have inside : l.Enclosed offset ((trivia ++ '"' :: (content ++ ['"'])) ++ rest) := by
        apply (ih l hl).append
        simp only [Text.byteLength_append, Text.byteLength_cons, Text.byteLength_nil, quote]
        omega
      simpa using inside

theorem liesIn (h : Lexes offset cs ls) : ∀ l ∈ literals ls, l.LiesIn offset cs :=
  fun l hl => (h.enclosed l hl).liesIn

theorem separated (h : Lexes offset cs ls) :
    (literals ls).Pairwise fun l m => l.span.Precedes m.span := by
  induction h with
  | @last offset _ _ _ _ other => simp [literals_last other]
  | punctuation _ _ _ ih => exact ih
  | scalar _ _ _ _ _ ih => exact ih
  | string _ _ tail ih =>
    refine .cons ?_ ih
    intro m hm
    have start := (tail.liesIn m hm).start
    simp only [Span.Precedes, Span.ofLength]
    omega

end Lexes

-- A literal with the change that is made in it.
structure StringLiteral.Moved (change : Option Change) (l l' : StringLiteral) : Prop where
  value : Change.Turned change l.value l'.value
  escaped : l'.escaped = l.escaped

-- Lexemes that differ in their places and in changes of literals only. The two ends of the texts
-- belong together.
inductive Lexeme.Moved (change : StringLiteral → Option Change) : Lexeme → Lexeme → Prop where
  | punctuation (p : Punctuation) : Moved change (.punctuation p) (.punctuation p)
  | string {l l' : StringLiteral} : l.Moved (change l) l' → Moved change (.string l) (.string l')
  | scalar : Moved change .scalar .scalar
  | broken (stop stop' : Nat) : Moved change (.brokenString stop) (.brokenString stop')
  | nothing : Moved change .nothing .nothing

structure LocatedLexeme.Moved (change : StringLiteral → Option Change) (stop stop' : Nat)
    (a b : LocatedLexeme) : Prop where
  lexeme : a.lexeme.Moved change b.lexeme
  atEnd : a.start = stop → b.start = stop'

-- A change that can be made in a literal.
structure StringLiteral.Takes (l : StringLiteral) (c : Change) : Prop where
  unescaped : l.escaped = false
  part : Text.slice c.offset (c.offset + Text.byteLength c.part) l.value.toList = some c.part
  plain : ∀ d ∈ c.text.toList, IsPlain d

def editsIn (change : StringLiteral → Option Change) (ls : List StringLiteral) : List EditSpan :=
  ls.filterMap fun l => (change l).map (·.editIn l.span)

-- Edits in the literals of a text lie behind the quotes that open them.
theorem Lexes.lt_of_mem_editsIn {change : StringLiteral → Option Change} (h : Lexes offset cs ls) :
    ∀ e ∈ editsIn change (literals ls), offset < e.span.start := by
  intro e he
  obtain ⟨l, hl, he⟩ := List.mem_filterMap.mp he
  obtain ⟨c, -, rfl⟩ := Option.map_eq_some_iff.mp he
  have start := (h.liesIn l hl).start
  simp only [Change.editIn, Span.ofLength]
  omega

-- The edit of a string without escapes leaves it one, and its value turns like its content.
theorem StringLiteral.exists_value {change : Option Change} {content content' : List Char}
    (quoted : Quoted content l.value.toList) (escaped : l.escaped = content.contains '\\')
    (takes : ∀ c, change = some c → l.Takes c)
    (hs : Splice l.span.start content (change.map (·.editIn l.span)).toList content') :
    ∃ value, Quoted content' value ∧ content'.contains '\\' = content.contains '\\' ∧
      Change.Turned change l.value (String.ofList value) ∧
      Text.byteLength content' = Text.byteLength content + Change.growth change := by
  cases change with
  | none =>
    cases hs
    exact ⟨_, quoted, rfl, by simp [Change.Turned], by simp [Change.growth]⟩
  | some c =>
    have ⟨unescaped, part, text⟩ := takes c rfl
    have backslash : '\\' ∉ content := by simpa [unescaped] using escaped.symm
    have ⟨same, all⟩ := quoted.eq_of_unescaped backslash
    have ⟨before, after, cut, place, _⟩ := Text.slice_eq_some_iff.mp part
    obtain rfl : content = before ++ (c.part ++ after) := same.symm.trans cut
    have turned : content' = before ++ (c.text.toList ++ after) := by
      apply hs.eq_of_singleton
      case hs => simp [Change.editIn, Span.ofLength, place]
      case hl => rfl
    subst turned
    have allPlain : ∀ d ∈ before ++ (c.text.toList ++ after), IsPlain d := by
      intro d hd
      simp only [List.mem_append] at hd
      obtain hd | hd | hd := hd
      · exact all d (by simp [hd])
      · exact text d hd
      · exact all d (by simp [hd])
    have backslash' : '\\' ∉ before ++ (c.text.toList ++ after) :=
      fun hm => (allPlain _ hm).right.left rfl
    refine ⟨_, quoted_of_plain allPlain, ?_, ⟨before, after, cut, place, by simp⟩, ?_⟩
    case _ => simp only [List.contains_eq_mem, backslash, backslash']
    case _ =>
      simp only [Text.byteLength_append, Change.growth]
      omega

-- The change of a literal is made between its quotes.
theorem StringLiteral.Takes.inside {c : Change} {content : List Char} (takes : l.Takes c)
    (quoted : Quoted content l.value.toList) (escaped : l.escaped = content.contains '\\') :
    l.span.start ≤ (c.editIn l.span).span.start ∧
      (c.editIn l.span).span.stop ≤ l.span.start + Text.byteLength content := by
  have ⟨same, _⟩ := quoted.eq_of_unescaped (by simpa [takes.unescaped] using escaped.symm)
  have ⟨_, last⟩ := Text.le_of_slice takes.part
  rw [same] at last
  simp only [Change.editIn, Span.ofLength]
  omega

-- The spans of literals, with what their changes make them grow by.
def growing (change : StringLiteral → Option Change) (ls : List StringLiteral) : List (Span × Int) :=
  ls.map fun l => (l.span, Change.growth (change l))

theorem editsIn_cons {change : StringLiteral → Option Change} {rest : List StringLiteral} :
    editsIn change (l :: rest)
      = ((change l).map (·.editIn l.span)).toList ++ editsIn change rest := by
  unfold editsIn
  cases hc : change l <;> simp [hc]

-- A part in front of the literals of a text stays. What follows it starts as before.
theorem Lexes.kept_append {change : StringLiteral → Option Change} {front rest out : List Char}
    (tail : Lexes (offset + Text.byteLength front) rest ls)
    (hs : Splice offset (front ++ rest) (editsIn change (literals ls)) out) :
    ∃ rest', out = front ++ rest' ∧ rest'.head? = rest.head? ∧
      Splice (offset + Text.byteLength front) rest (editsIn change (literals ls)) rest' := by
  have ⟨rest', heq, behind⟩ := hs.kept_append fun e he => Nat.le_of_lt (tail.lt_of_mem_editsIn e he)
  exact ⟨rest', heq, behind.head?_eq tail.lt_of_mem_editsIn, behind⟩

-- A literal is spliced between its quotes, and so is the text behind it.
theorem Lexes.exists_content {change : StringLiteral → Option Change}
    {trivia content rest out : List Char}
    (tail : Lexes (offset + Text.byteLength trivia + Text.byteLength content + 2) rest ls)
    (quoted : Quoted content l.value.toList) (escaped : l.escaped = content.contains '\\')
    (start : l.span.start = offset + Text.byteLength trivia + 1)
    (takes : ∀ c, change l = some c → l.Takes c)
    (hs : Splice offset (trivia ++ '"' :: (content ++ '"' :: rest))
      (editsIn change (l :: literals ls)) out) :
    ∃ content' rest', out = trivia ++ '"' :: (content' ++ '"' :: rest') ∧
      Splice l.span.start content ((change l).map (·.editIn l.span)).toList content' ∧
      Splice (offset + Text.byteLength trivia + Text.byteLength content + 2) rest
        (editsIn change (literals ls)) rest' := by
  have quote : ('"' : Char).utf8Size = 1 := by decide
  have opened : offset + Text.byteLength (trivia ++ ['"']) = l.span.start := by
    simp [quote, start, Nat.add_assoc]
  have closed : l.span.start + Text.byteLength content + Text.byteLength ['"']
      = offset + Text.byteLength trivia + Text.byteLength content + 2 := by
    simp only [Text.byteLength_cons, Text.byteLength_nil, quote]
    omega
  have hs : Splice offset ((trivia ++ ['"']) ++ (content ++ (['"'] ++ rest)))
      (((change l).map (·.editIn l.span)).toList ++ editsIn change (literals ls)) out := by
    simpa [editsIn_cons] using hs
  have inside : ∀ e ∈ ((change l).map (·.editIn l.span)).toList, l.span.start ≤ e.span.start ∧
      e.span.stop ≤ l.span.start + Text.byteLength content := by
    intro e he
    obtain ⟨c, hc, rfl⟩ := Option.map_eq_some_iff.mp (Option.mem_toList.mp he)
    exact (takes c hc).inside quoted escaped
  have behind (e) (he : e ∈ editsIn change (literals ls)) :=
    Nat.le_of_lt (tail.lt_of_mem_editsIn e he)
  have ⟨content', rest', heq, inner, outer⟩ :=
    hs.split_between (by rwa [opened]) (by rwa [opened, closed])
  rw [opened] at inner
  rw [opened, closed] at outer
  exact ⟨content', rest', by simpa using heq, inner, outer⟩

-- The lexemes of a text before and after the changes in its literals. The literals of the text are
-- shifted by what the changes in front of the text add in length.
structure Lexes.Spliced (change : StringLiteral → Option Change) (stop stop' : Nat) (shift : Int)
    (ls ls' : List LocatedLexeme) : Prop where
  moved : List.Forall₂ (LocatedLexeme.Moved change stop stop') ls ls'
  places : (literals ls').map (·.span.bounds) = Span.grown shift (growing change (literals ls))

namespace Lexes.Spliced

variable {change : StringLiteral → Option Change} {start start' stop stop' : Nat} {shift : Int}
  {ls' : List LocatedLexeme}

theorem punctuation (h : Spliced change stop stop' shift ls ls') (p : Punctuation)
    (inner : start ≠ stop) :
    Spliced change stop stop' shift (⟨start, .punctuation p⟩ :: ls) (⟨start', .punctuation p⟩ :: ls') :=
  ⟨.cons ⟨.punctuation p, fun last => absurd last inner⟩ h.moved, h.places⟩

theorem scalar (h : Spliced change stop stop' shift ls ls') (inner : start ≠ stop) :
    Spliced change stop stop' shift (⟨start, .scalar⟩ :: ls) (⟨start', .scalar⟩ :: ls') :=
  ⟨.cons ⟨.scalar, fun last => absurd last inner⟩ h.moved, h.places⟩

theorem string {l' : StringLiteral}
    (h : Spliced change stop stop' (shift + Change.growth (change l)) ls ls')
    (moved : l.Moved (change l) l') (inner : start ≠ stop)
    (place : l'.span.bounds
      = (l.span.start + shift, l.span.stop + (shift + Change.growth (change l)))) :
    Spliced change stop stop' shift (⟨start, .string l⟩ :: ls) (⟨start', .string l'⟩ :: ls') := by
  refine ⟨.cons ⟨.string moved, fun last => absurd last inner⟩ h.moved, ?_⟩
  simp only [literals_string, List.map_cons, growing, Span.grown, place]
  exact congrArg _ h.places

-- The same part in front of both texts shifts nothing.
theorem behind {offset' : Nat} {front rest rest' : List Char}
    (h : Spliced change (offset + Text.byteLength front + Text.byteLength rest)
      (offset' + Text.byteLength front + Text.byteLength rest')
      (↑(offset' + Text.byteLength front) - ↑(offset + Text.byteLength front)) ls ls') :
    Spliced change (offset + Text.byteLength (front ++ rest))
      (offset' + Text.byteLength (front ++ rest')) (offset' - offset) ls ls' := by
  have shift : (↑(offset' + Text.byteLength front) : Int) - ↑(offset + Text.byteLength front)
      = offset' - offset := by omega
  rw [shift] at h
  simpa only [Text.byteLength_append, Nat.add_assoc] using h

end Lexes.Spliced

-- The parts of the text between the literals are read again in front of the spliced text, each
-- literal between its quotes.
theorem Lexes.splice {change : StringLiteral → Option Change} {out : List Char}
    (h : Lexes offset cs ls) (takes : ∀ l ∈ literals ls, ∀ c, change l = some c → l.Takes c)
    (hs : Splice offset cs (editsIn change (literals ls)) out) (offset' : Nat) :
    ∃ ls', Lexes offset' out ls' ∧
      Spliced change (offset + Text.byteLength cs) (offset' + Text.byteLength out)
        (offset' - offset) ls ls' := by
  induction h generalizing out offset' with
  | @last offset n cs lexeme found other =>
    rw [literals_last other] at hs
    cases hs
    refine ⟨_, .last found other, .cons ⟨?_, ?_⟩ .nil, by simp only [literals_last other]; rfl⟩
    case _ =>
      obtain h | ⟨stop, h⟩ := other
      · simpa [h] using .nothing
      · simpa [h] using .broken _ _
    case _ =>
      intro last
      dsimp only at last ⊢
      omega
  | @punctuation offset trivia rest c p ls skips hp tail ih =>
    have pos := c.utf8Size_pos
    have next (n : Nat) : n + Text.byteLength trivia + c.utf8Size
        = n + Text.byteLength (trivia ++ [c]) := by simp [Nat.add_assoc]
    rw [next] at tail ih
    rw [List.append_cons] at hs ⊢
    have ⟨rest', heq, _, hs⟩ := tail.kept_append hs
    have ⟨ls', lexes, spliced⟩ := ih takes hs (offset' + Text.byteLength (trivia ++ [c]))
    have lexes := Lexes.punctuation skips hp (next offset' ▸ lexes)
    rw [List.append_cons, ← heq] at lexes
    refine ⟨_, lexes, Spliced.punctuation ?_ p ?_⟩
    case _ => exact heq ▸ spliced.behind
    case _ =>
      simp only [Text.byteLength_append, Text.byteLength_cons]
      omega
  | @scalar offset trivia scalar rest c ls skips quote hp found tail ih =>
    have pos := c.utf8Size_pos
    have next (n : Nat) : n + Text.byteLength trivia + Text.byteLength (c :: scalar)
        = n + Text.byteLength (trivia ++ c :: scalar) := by simp [Nat.add_assoc]
    have cut (rest : List Char) : trivia ++ c :: (scalar ++ rest) = (trivia ++ c :: scalar) ++ rest := by
      simp
    rw [next] at tail ih
    rw [cut] at hs ⊢
    have ⟨rest', heq, head, hs⟩ := tail.kept_append hs
    have ⟨ls', lexes, spliced⟩ := ih takes hs (offset' + Text.byteLength (trivia ++ c :: scalar))
    -- the scalar ends where it ended, since what follows starts alike
    have lexes := Lexes.scalar skips quote hp (fun more hm => found more (hm.trans head))
      (next offset' ▸ lexes)
    rw [cut, ← heq] at lexes
    refine ⟨_, lexes, Spliced.scalar ?_ ?_⟩
    case _ => exact heq ▸ spliced.behind
    case _ =>
      simp only [Text.byteLength_append, Text.byteLength_cons]
      omega
  | @string offset trivia content value rest ls skips quoted tail ih =>
    have quote : ('"' : Char).utf8Size = 1 := by decide
    generalize hl : StringLiteral.mk (String.ofList value) (.ofLength (offset + Text.byteLength trivia + 1)
      (Text.byteLength content)) (content.contains '\\') = l at takes hs
    have ⟨hv, start, stop, escaped⟩ : l.value.toList = value ∧
        l.span.start = offset + Text.byteLength trivia + 1 ∧
        l.span.stop = l.span.start + Text.byteLength content ∧ l.escaped = content.contains '\\' := by
      subst hl
      exact ⟨String.toList_ofList, rfl, rfl, rfl⟩
    subst hv
    have changes := takes l (by simp)
    have ⟨content', rest', heq, inner, outer⟩ := tail.exists_content quoted escaped start changes hs
    have ⟨value', quoted', escaped', turned, grows⟩ :=
      StringLiteral.exists_value quoted escaped changes inner
    have ⟨ls', lexes, spliced⟩ := ih (fun m hm => takes m (by simp [hm])) outer
      (offset' + Text.byteLength trivia + Text.byteLength content' + 2)
    have lexes := Lexes.string skips quoted' lexes
    rw [← heq] at lexes
    refine ⟨_, lexes, Spliced.string ?_ ⟨turned, escaped'.trans escaped.symm⟩ ?_ ?_⟩
    case _ =>
      have shift : (↑(offset' + Text.byteLength trivia + Text.byteLength content' + 2) : Int)
          - ↑(offset + Text.byteLength trivia + Text.byteLength content + 2)
            = offset' - offset + Change.growth (change l) := by omega
      have ends (n : Nat) (content rest : List Char) :
          n + Text.byteLength (trivia ++ '"' :: (content ++ '"' :: rest))
            = n + Text.byteLength trivia + Text.byteLength content + 2 + Text.byteLength rest := by
        simp only [Text.byteLength_append, Text.byteLength_cons, quote]
        omega
      rw [heq, ends, ends, ← shift]
      exact spliced
    case _ =>
      simp only [Text.byteLength_append, Text.byteLength_cons, quote]
      omega
    case _ =>
      simp only [Span.bounds, Span.ofLength, Prod.mk.injEq]
      omega

end Repin.Json
