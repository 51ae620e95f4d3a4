import Mathlib.Data.List.TakeWhile
import Repin.Dockerfile.Document
import Repin.Proofs.Text.Blank
import Repin.Proofs.Text.Bytes
/-!
# Lines with another image

A line is blanks and words in turn. When the image of a `FROM` instruction is replaced by another
word, the line is read as before, with the other image.
-/
namespace Repin.Dockerfile

variable {offset : Nat} {cs rest blanks word : List Char} {ws : List Word}

-- A word can stand between blanks.
def IsWord (word : List Char) : Prop :=
  word ≠ [] ∧ ∀ c ∈ word, Text.isBlank c = false

-- What can stand behind a word.
def EndsWord (cs : List Char) : Prop :=
  ∀ c ∈ cs.head?, Text.isBlank c

-- The words of a line, together with the blanks around them.
inductive Words : Nat → List Char → List Word → Prop where
  | nil {offset : Nat} {blanks : List Char} :
    (∀ c ∈ blanks, Text.isBlank c) → Words offset blanks []
  | cons {offset : Nat} {blanks word rest : List Char} {ws : List Word} :
    (∀ c ∈ blanks, Text.isBlank c) → IsWord word → EndsWord rest →
      Words (offset + Text.byteLength blanks + Text.byteLength word) rest ws →
        Words offset (blanks ++ (word ++ rest)) (⟨offset + Text.byteLength blanks, word⟩ :: ws)

theorem wordsFrom_blanks (h : ∀ c ∈ blanks, Text.isBlank c) (cs : List Char) :
    wordsFrom offset [] (blanks ++ cs) = wordsFrom (offset + Text.byteLength blanks) [] cs := by
  induction blanks generalizing offset with
  | nil => simp
  | cons c blanks ih =>
    have ⟨blank, others⟩ := List.forall_mem_cons.mp h
    simp [wordsFrom, blank, ih others, Nat.add_assoc]

theorem wordsFrom_word (h : ∀ c ∈ word, Text.isBlank c = false) (front cs : List Char) :
    wordsFrom offset front (word ++ cs)
      = wordsFrom (offset + Text.byteLength word) (word.reverse ++ front) cs := by
  induction word generalizing offset front with
  | nil => simp
  | cons c word ih =>
    have ⟨blank, others⟩ := List.forall_mem_cons.mp h
    simp [wordsFrom, blank, ih others, Nat.add_assoc]

theorem wordsFrom_end (hw : IsWord word) (hr : EndsWord rest) :
    wordsFrom (offset + Text.byteLength word) word.reverse rest
      = ⟨offset, word⟩ :: words (offset + Text.byteLength word) rest := by
  have ne : word.reverse.isEmpty = false := by simp [hw.left]
  cases rest with
  | nil => simp [wordsFrom, words, ne, Text.byteLength_reverse]
  | cons c cs =>
    have blank : Text.isBlank c := hr c rfl
    simp [wordsFrom, words, ne, Text.byteLength_reverse, blank]

theorem Words.words_eq (h : Words offset cs ws) : words offset cs = ws := by
  induction h with
  | @nil offset blanks hb =>
    rw [words, ← List.append_nil blanks, wordsFrom_blanks hb, wordsFrom]
    rfl
  | cons hb hw hr _ ih =>
    rw [words, wordsFrom_blanks hb, wordsFrom_word hw.right, List.append_nil, wordsFrom_end hw hr, ih]

-- Every line is blanks and words: the next word starts where the blanks end.
theorem exists_words (offset : Nat) (cs : List Char) : ∃ ws, Words offset cs ws := by
  have blanks : ∀ c ∈ cs.takeWhile Text.isBlank, Text.isBlank c := fun _ => List.mem_takeWhile_imp
  have cut := List.takeWhile_append_dropWhile (p := Text.isBlank) (l := cs)
  by_cases hn : cs.dropWhile Text.isBlank = []
  case pos =>
    rw [hn, List.append_nil] at cut
    exact ⟨[], .nil (cut ▸ blanks)⟩
  case neg =>
    have apart := List.takeWhile_append_dropWhile (p := (!Text.isBlank ·))
      (l := cs.dropWhile Text.isBlank)
    have isWord : IsWord ((cs.dropWhile Text.isBlank).takeWhile (!Text.isBlank ·)) := by
      constructor
      case left =>
        have first := List.head_dropWhile_not Text.isBlank hn
        have cons := List.cons_head_tail hn
        rw [← cons, List.takeWhile_cons_of_pos (by simpa using first)]
        exact List.cons_ne_nil _ _
      case right => exact fun c hc => by simpa using List.mem_takeWhile_imp hc
    have ends : EndsWord ((cs.dropWhile Text.isBlank).dropWhile (!Text.isBlank ·)) := by
      intro c hc
      have := List.head?_dropWhile_not (!Text.isBlank ·) (cs.dropWhile Text.isBlank)
      simpa [Option.mem_def.mp hc] using this
    have shorter : ((cs.dropWhile Text.isBlank).dropWhile (!Text.isBlank ·)).length < cs.length := by
      have whole := congrArg List.length cut
      have part := congrArg List.length apart
      have some := List.length_pos_iff.mpr isWord.left
      simp only [List.length_append] at whole part
      omega
    have ⟨ws, tail⟩ := exists_words (offset + Text.byteLength (cs.takeWhile Text.isBlank)
      + Text.byteLength ((cs.dropWhile Text.isBlank).takeWhile (!Text.isBlank ·)))
      ((cs.dropWhile Text.isBlank).dropWhile (!Text.isBlank ·))
    have words := Words.cons blanks isWord ends tail
    rw [apart, cut] at words
    exact ⟨_, words⟩
termination_by cs.length

theorem words_words (offset : Nat) (cs : List Char) : Words offset cs (words offset cs) := by
  have ⟨ws, h⟩ := exists_words offset cs
  rwa [h.words_eq]

-- The words of a line do not depend on where it starts.
theorem Words.exists_shifted (h : Words offset cs ws) (offset' : Nat) :
    ∃ ws', Words offset' cs ws' ∧ ws'.map (·.text) = ws.map (·.text) := by
  induction h generalizing offset' with
  | nil hb => exact ⟨[], .nil hb, rfl⟩
  | @cons _ blanks word _ _ hb hw hr _ ih =>
    have ⟨ws', tail, same⟩ := ih (offset' + Text.byteLength blanks + Text.byteLength word)
    exact ⟨_, .cons hb hw hr tail, by simp [same]⟩

-- Any word can be replaced; the words around it stay.
theorem Words.exists_replaced {pre post : List Word} {w : Word} (h : Words offset cs (pre ++ w :: post)) :
    ∃ front back, cs = front ++ (w.text ++ back) ∧ w.start = offset + Text.byteLength front ∧
      IsWord w.text ∧ ∀ word, IsWord word → ∀ offset', ∃ pre' post',
        Words offset' (front ++ (word ++ back))
          (pre' ++ ⟨offset' + Text.byteLength front, word⟩ :: post') ∧
        pre'.map (·.text) = pre.map (·.text) ∧ post'.map (·.text) = post.map (·.text) := by
  induction pre generalizing offset cs with
  | nil =>
    cases h with
    | @cons _ blanks word rest _ hb hw hr tail =>
      refine ⟨blanks, rest, rfl, rfl, hw, fun word' hw' offset' => ?_⟩
      have ⟨post', tail, same⟩ := tail.exists_shifted
        (offset' + Text.byteLength blanks + Text.byteLength word')
      exact ⟨[], post', .cons hb hw' hr tail, rfl, same⟩
  | cons v pre ih =>
    cases h with
    | @cons _ blanks word rest _ hb hw hr tail =>
      have ⟨front, back, cut, start, isWord, replaced⟩ := ih tail
      refine ⟨blanks ++ (word ++ front), back, by simp [cut], ?_, isWord, fun word' hw' offset' => ?_⟩
      case _ =>
        simp only [Text.byteLength_append]
        omega
      case _ =>
        have ⟨pre', post', tail, before, behind⟩ := replaced word' hw'
          (offset' + Text.byteLength blanks + Text.byteLength word)
        -- the next word still ends where it ended
        have ends : EndsWord (front ++ (word' ++ back)) := by
          cases front with
          | nil =>
            cases hc : w.text with
            | nil => exact absurd hc isWord.left
            | cons c text =>
              have blank : Text.isBlank c := hr c (by simp [cut, hc])
              simp [isWord.right c (by simp [hc])] at blank
          | cons c front => exact fun d hd => hr d (by simpa [cut] using hd)
        have words := Words.cons hb hw ends tail
        refine ⟨⟨offset' + Text.byteLength blanks, word⟩ :: pre', post', ?_, by simp [before], behind⟩
        simpa [Nat.add_assoc] using words

theorem stageOf_congr {ws' : List Word} (h : ws'.map (·.text) = ws.map (·.text)) :
    stageOf ws' = stageOf ws := by
  match ws, ws' with
  | [], [] | [_], [_] => rfl
  | _ :: _ :: _, _ :: _ :: _ =>
    simp only [List.map_cons, List.cons.injEq] at h
    simp [stageOf, Word.is, h]
  | [], _ :: _ | _ :: _, [] | [_], _ :: _ :: _ | _ :: _ :: _, [_] => simp at h

-- The words in front of the image are flags.
theorem exists_flags {image : Word} {behind : List Word}
    (h : ws.dropWhile Word.isFlag = image :: behind) :
    ∃ flags, ws = flags ++ image :: behind ∧ (∀ w ∈ flags, w.isFlag) ∧ image.isFlag = false := by
  have cut := List.takeWhile_append_dropWhile (p := Word.isFlag) (l := ws)
  have first := List.head?_dropWhile_not Word.isFlag ws
  rw [h] at cut first
  exact ⟨_, cut.symm, fun w => List.mem_takeWhile_imp, by simpa using first⟩

namespace FromLine

-- An instruction is its keyword, flags, an image that is none, and what stands behind. Where the words
-- start does not matter.
theorem ofWords?_eq_some {l : FromLine} (h : ofWords? ws = some l) :
    ∃ pre post, ws = pre ++ l.image :: post ∧ l.image.isFlag = false ∧
      ∀ pre' image post', pre'.map (·.text) = pre.map (·.text) →
        post'.map (·.text) = post.map (·.text) → image.isFlag = false →
          ofWords? (pre' ++ image :: post') = some ⟨image, l.stage⟩ := by
  unfold ofWords? at h
  split at h
  case h_1 => cases h
  case h_2 instruction rest =>
    split at h
    case isFalse => cases h
    case isTrue keyword =>
      split at h
      case h_1 => cases h
      case h_2 image behind hd =>
        cases h
        obtain ⟨flags, rfl, isFlag, first⟩ := exists_flags hd
        refine ⟨instruction :: flags, behind, rfl, first, ?_⟩
        intro pre' image' post' before after none
        cases pre' with
        | nil => cases before
        | cons instruction' flags' =>
          obtain ⟨same, texts⟩ := List.cons.inj before
          have keyword' : instruction'.is "FROM" := by simpa [Word.is, same] using keyword
          have all : ∀ w ∈ flags', w.isFlag := by
            intro w hw
            have hm : w.text ∈ flags.map (·.text) := texts ▸ List.mem_map_of_mem hw
            obtain ⟨v, hv, text⟩ := List.mem_map.mp hm
            simpa [Word.isFlag, text] using isFlag v hv
          simp [ofWords?, keyword', List.dropWhile_append_of_pos all, none, stageOf_congr after]

theorem ofWords?_eq_none {ws' : List Word} (h : ofWords? ws = none)
    (same : ws'.map (·.text) = ws.map (·.text)) : ofWords? ws' = none := by
  cases hs : ofWords? ws' with
  | none => rfl
  | some l =>
    have ⟨pre, post, cut, flag, read⟩ := ofWords?_eq_some hs
    rw [cut, List.map_append, List.map_cons] at same
    obtain ⟨pre', rest', rfl, before, rest⟩ := List.map_eq_append_iff.mp same.symm
    obtain ⟨image', post', rfl, text, after⟩ := List.map_eq_cons_iff.mp rest
    have flag' : image'.isFlag = false := by simpa [Word.isFlag, text] using flag
    simp [read pre' image' post' before after flag'] at h

-- What a line is read as, for any place of the line and any image.
theorem exists_replaced {l : FromLine} (h : ofWords? (words offset cs) = some l) :
    ∃ front back, cs = front ++ (l.image.text ++ back) ∧
      l.image.start = offset + Text.byteLength front ∧ IsWord l.image.text ∧
      l.image.isFlag = false ∧ ∀ image, IsWord image → "--".toList.isPrefixOf image = false →
        ∀ offset', ofWords? (words offset' (front ++ (image ++ back)))
          = some ⟨⟨offset' + Text.byteLength front, image⟩, l.stage⟩ := by
  have ⟨pre, post, cut, flag, read⟩ := ofWords?_eq_some h
  have line := words_words offset cs
  rw [cut] at line
  have ⟨front, back, whole, start, isWord, replaced⟩ := line.exists_replaced
  refine ⟨front, back, whole, start, isWord, flag, fun image hw hf offset' => ?_⟩
  have ⟨pre', post', words', before, after⟩ := replaced image hw offset'
  rw [words'.words_eq]
  exact read pre' _ post' before after hf

theorem ofWords?_words_eq_none (h : ofWords? (words offset cs) = none) (offset' : Nat) :
    ofWords? (words offset' cs) = none := by
  have ⟨ws', words', same⟩ := (words_words offset cs).exists_shifted offset'
  rw [words'.words_eq]
  exact ofWords?_eq_none h same

end FromLine
end Repin.Dockerfile
