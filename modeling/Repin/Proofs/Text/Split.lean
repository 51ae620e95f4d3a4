import Repin.Text.Split
/-!
# Splitting and joining

A text is cut at its separators and nowhere else, so joining pieces without separators and cutting
the result gives the pieces back.
-/
namespace Repin.Text

variable {isSeparator : Char → Bool} {separator c : Char} {before after cs piece : List Char}
variable {pieces : List (List Char)}

theorem splitOn_cons_separator (h : isSeparator c) :
    splitOn isSeparator (c :: cs) = [] :: splitOn isSeparator cs := by
  simp [splitOn, h]

-- Without a separator the text is its own only piece.
theorem splitOn_eq_singleton (h : ∀ c ∈ before, ¬ isSeparator c) :
    splitOn isSeparator before = [before] := by
  induction before with
  | nil => rfl
  | cons c cs ih =>
    have hc := h c List.mem_cons_self
    have hs := ih fun d hd => h d (List.mem_cons_of_mem _ hd)
    simp [splitOn, hc, hs]

theorem splitOn_append (hc : isSeparator c) :
    splitOn isSeparator (before ++ c :: after)
      = splitOn isSeparator before ++ splitOn isSeparator after := by
  induction before with
  | nil => simp [splitOn, hc]
  | cons d ds ih =>
    by_cases hd : isSeparator d
    case pos => simp [splitOn, hd, ih]
    case neg =>
      have ne := splitOn_ne_nil isSeparator ds
      cases hs : splitOn isSeparator ds
      case nil => contradiction
      case cons piece pieces => simp [splitOn, hd, ih, hs]

theorem not_of_mem_splitOn (h : piece ∈ splitOn isSeparator cs) : ∀ c ∈ piece, ¬ isSeparator c := by
  induction cs generalizing piece with
  | nil =>
    simp only [splitOn, List.mem_singleton] at h
    simp [h]
  | cons d ds ih =>
    simp only [splitOn] at h
    split at h
    case isTrue =>
      cases List.mem_cons.mp h
      case inl h => simp [h]
      case inr h => exact ih h
    case isFalse hd =>
      have ne := splitOn_ne_nil isSeparator ds
      split at h
      case h_1 hs => exact absurd hs ne
      case h_2 first rest hs =>
        cases List.mem_cons.mp h
        case inl h =>
          subst h
          intro c hc
          cases List.mem_cons.mp hc
          case inl hc => simp [hc, hd]
          case inr hc => exact ih (hs ▸ List.mem_cons_self) c hc
        case inr h => exact ih (hs ▸ List.mem_cons_of_mem _ h)

theorem mem_of_mem_splitOn (h : piece ∈ splitOn isSeparator cs) : ∀ c ∈ piece, c ∈ cs := by
  induction cs generalizing piece with
  | nil =>
    simp only [splitOn, List.mem_singleton] at h
    simp [h]
  | cons d ds ih =>
    simp only [splitOn] at h
    split at h
    case isTrue =>
      cases List.mem_cons.mp h
      case inl h => simp [h]
      case inr h => exact fun c hc => List.mem_cons_of_mem _ (ih h c hc)
    case isFalse =>
      split at h
      case h_1 => simp_all
      case h_2 first rest hs =>
        cases List.mem_cons.mp h
        case inl h =>
          subst h
          intro c hc
          cases List.mem_cons.mp hc
          case inl hc => simp [hc]
          case inr hc => exact List.mem_cons_of_mem _ (ih (hs ▸ List.mem_cons_self) c hc)
        case inr h =>
          exact fun c hc => List.mem_cons_of_mem _ (ih (hs ▸ List.mem_cons_of_mem _ h) c hc)

theorem exists_mem_splitOn (h : c ∈ cs) (hc : ¬ isSeparator c) :
    ∃ piece ∈ splitOn isSeparator cs, c ∈ piece := by
  induction cs with
  | nil => cases h
  | cons d ds ih =>
    simp only [splitOn]
    split
    case isTrue hd =>
      obtain rfl | h := List.mem_cons.mp h
      · contradiction
      · obtain ⟨piece, hp, hm⟩ := ih h
        exact ⟨piece, List.mem_cons_of_mem _ hp, hm⟩
    case isFalse =>
      split
      case h_1 hs => exact absurd hs (splitOn_ne_nil isSeparator ds)
      case h_2 first rest hs =>
        obtain rfl | h := List.mem_cons.mp h
        · exact ⟨_, List.mem_cons_self, List.mem_cons_self⟩
        · obtain ⟨piece, hp, hm⟩ := ih h
          rw [hs] at hp
          obtain rfl | hp := List.mem_cons.mp hp
          · exact ⟨d :: piece, List.mem_cons_self, List.mem_cons_of_mem _ hm⟩
          · exact ⟨piece, List.mem_cons_of_mem _ hp, hm⟩

theorem splitAt_eq_singleton (h : separator ∉ before) : splitAt separator before = [before] := by
  apply splitOn_eq_singleton
  intro c hc
  simp only [beq_iff_eq]
  exact fun he => h (he ▸ hc)

theorem exists_mem_splitAt (h : c ∈ cs) (hc : c ≠ separator) :
    ∃ piece ∈ splitAt separator cs, c ∈ piece :=
  exists_mem_splitOn h (by simpa using hc)

theorem splitAt_append (before after : List Char) : splitAt separator (before ++ separator :: after)
    = splitAt separator before ++ splitAt separator after :=
  splitOn_append (by simp)

theorem length_splitAt (separator : Char) (cs : List Char) :
    (splitAt separator cs).length = cs.count separator + 1 := by
  by_cases h : separator ∈ cs
  case neg => rw [splitAt_eq_singleton h, List.count_eq_zero.mpr h, List.length_singleton]
  case pos =>
    obtain ⟨before, after, rfl, outside⟩ := List.eq_append_cons_of_mem h
    have shorter : after.length < (before ++ separator :: after).length := by simp; omega
    rw [splitAt_append, splitAt_eq_singleton outside, List.length_append, length_splitAt separator after,
      List.count_append, List.count_eq_zero.mpr outside, List.count_cons_self, List.length_singleton]
    omega
termination_by cs.length

theorem splitAt_append_separator (h : separator ∉ before) :
    splitAt separator (before ++ separator :: after) = before :: splitAt separator after := by
  rw [splitAt_append, splitAt_eq_singleton h]
  rfl

-- What holds no separator joins the first piece.
theorem splitAt_append_of_not_mem {first : List Char} (h : separator ∉ before)
    (hs : splitAt separator after = first :: pieces) :
    splitAt separator (before ++ after) = (before ++ first) :: pieces := by
  induction before with
  | nil => exact hs
  | cons c before ih =>
    simp only [List.mem_cons, not_or] at h
    obtain ⟨other, outside⟩ := h
    have tail : splitOn (· == separator) (before ++ after) = (before ++ first) :: pieces := ih outside
    simp [splitOn, Ne.symm other, tail]

-- What holds no separator joins the last piece.
theorem splitAt_append_right (cs : List Char) (h : separator ∉ after) : ∃ pieces last,
    splitAt separator cs = pieces ++ [last] ∧
      splitAt separator (cs ++ after) = pieces ++ [last ++ after] := by
  by_cases hs : separator ∈ cs
  case neg =>
    refine ⟨[], cs, splitAt_eq_singleton hs, splitAt_eq_singleton ?_⟩
    simp [hs, h]
  case pos =>
    obtain ⟨before, rest, rfl, outside⟩ := List.eq_append_cons_of_mem hs
    have shorter : rest.length < (before ++ separator :: rest).length := by simp; omega
    have ⟨pieces, last, heq, happ⟩ := splitAt_append_right rest h
    refine ⟨before :: pieces, last, ?_, ?_⟩
    · rw [splitAt_append_separator outside, heq, List.cons_append]
    · rw [List.append_assoc, List.cons_append, splitAt_append_separator outside, happ,
        List.cons_append]
termination_by cs.length

theorem mem_splitAt_append (before : List Char) (h : separator ∉ after) :
    after ∈ splitAt separator (before ++ separator :: after) := by
  rw [splitAt_append, splitAt_eq_singleton h]
  simp

theorem not_mem_of_mem_splitAt (h : piece ∈ splitAt separator cs) : separator ∉ piece :=
  fun hm => not_of_mem_splitOn h separator hm (by simp)

-- Cutting undoes joining: `intercalate_splitAt` is the other direction.
theorem splitAt_intercalate (ne : pieces ≠ []) (h : ∀ piece ∈ pieces, separator ∉ piece) :
    splitAt separator ([separator].intercalate pieces) = pieces := by
  induction pieces with
  | nil => contradiction
  | cons first rest ih =>
    have hf := h first List.mem_cons_self
    cases rest with
    | nil => simp [splitAt_eq_singleton hf]
    | cons second rest =>
      have hr := ih (by simp) fun p hp => h p (List.mem_cons_of_mem _ hp)
      simp [splitAt_append_separator hf, hr]

theorem intercalate_append_cons (pre : List (List Char)) (piece : List Char)
    (post : List (List Char)) : [separator].intercalate (pre ++ piece :: post)
      = pre.flatMap (· ++ [separator]) ++ (piece ++ post.flatMap (separator :: ·)) := by
  induction pre with
  | cons first pre ih =>
    simp [List.intercalate_cons_of_ne_nil, ih]
  | nil =>
    induction post generalizing piece with
    | nil => simp
    | cons second post ih => simpa using ih second

theorem isInfix_of_mem_splitAt (h : piece ∈ splitAt separator cs) : piece <:+: cs := by
  obtain ⟨pre, post, hs⟩ := List.append_of_mem h
  have whole := intercalate_splitAt separator cs
  rw [hs, intercalate_append_cons, ← List.append_assoc] at whole
  exact ⟨_, _, whole⟩

-- The first piece of a text, and the text behind it with the separators between the others.
theorem eq_append_of_splitAt {first : List Char} (h : splitAt separator cs = first :: pieces) :
    cs = first ++ pieces.flatMap (separator :: ·) := by
  rw [← intercalate_splitAt separator cs, h, ← List.nil_append (first :: pieces),
    intercalate_append_cons, List.flatMap_nil, List.nil_append]

-- The last piece of a text and the first one of the text behind it are one piece.
theorem splitAt_append_splitAt {pre post : List (List Char)} {first last : List Char}
    (hb : splitAt separator before = pre ++ [last]) (ha : splitAt separator after = first :: post) :
    splitAt separator (before ++ after) = pre ++ (last ++ first) :: post := by
  have front := intercalate_splitAt separator before
  have back := intercalate_splitAt separator after
  rw [hb, intercalate_append_cons] at front
  rw [ha, ← List.nil_append (first :: post), intercalate_append_cons] at back
  have whole : before ++ after = [separator].intercalate (pre ++ (last ++ first) :: post) := by
    rw [intercalate_append_cons, ← front, ← back]
    simp
  rw [whole]
  apply splitAt_intercalate (by simp)
  intro piece hp
  obtain hp | rfl | hp := by simpa only [List.mem_append, List.mem_cons] using hp
  · exact not_mem_of_mem_splitAt (hb ▸ List.mem_append_left _ hp)
  · have hl : last ∈ splitAt separator before := by simp [hb]
    have hf : first ∈ splitAt separator after := by simp [ha]
    simp [not_mem_of_mem_splitAt hl, not_mem_of_mem_splitAt hf]
  · exact not_mem_of_mem_splitAt (ha ▸ List.mem_cons_of_mem _ hp)

theorem mem_intercalate (h : c ∈ [separator].intercalate pieces) :
    c = separator ∨ ∃ piece ∈ pieces, c ∈ piece := by
  induction pieces with
  | nil => simp at h
  | cons first rest ih =>
    cases rest with
    | nil => exact .inr ⟨first, List.mem_cons_self, by simpa using h⟩
    | cons second rest =>
      simp only [List.intercalate_cons_cons, List.mem_append, List.mem_singleton] at h
      obtain (h | h) | h := h
      · exact .inr ⟨first, List.mem_cons_self, h⟩
      · exact .inl h
      · obtain h | ⟨piece, hp, h⟩ := ih h
        · exact .inl h
        · exact .inr ⟨piece, List.mem_cons_of_mem _ hp, h⟩

theorem splitOnce_eq_none (h : separator ∉ cs) : splitOnce separator cs = none := by
  induction cs with
  | nil => rfl
  | cons c cs ih =>
    simp only [List.mem_cons, not_or] at h
    simp [splitOnce, Ne.symm h.left, ih h.right]

theorem splitOnce_append (h : separator ∉ before) :
    splitOnce separator (before ++ separator :: after) = some (before, after) := by
  induction before with
  | nil => simp [splitOnce]
  | cons c cs ih =>
    simp only [List.mem_cons, not_or] at h
    simp [splitOnce, Ne.symm h.left, ih h.right]

theorem splitOnce_eq_some_iff :
    splitOnce separator cs = some (before, after) ↔
      cs = before ++ separator :: after ∧ separator ∉ before := by
  constructor
  case mpr =>
    rintro ⟨rfl, h⟩
    exact splitOnce_append h
  case mp =>
    intro h
    induction cs generalizing before with
    | nil => simp [splitOnce] at h
    | cons c cs ih =>
      simp only [splitOnce] at h
      split at h
      case isTrue hc =>
        cases h
        simp [hc]
      case isFalse hc =>
        obtain ⟨⟨b, a⟩, hs, he⟩ := Option.map_eq_some_iff.mp h
        cases he
        have ⟨heq, hn⟩ := ih hs
        simp [heq, hn, Ne.symm hc]

theorem takeWhile_append_of_not_mem (h : separator ∉ before) (after : List Char) :
    (before ++ after).takeWhile (· ≠ separator) = before ++ after.takeWhile (· ≠ separator) :=
  List.takeWhile_append_of_pos fun _ hc => decide_eq_true (ne_of_mem_of_not_mem hc h)

theorem dropWhile_append_of_not_mem (h : separator ∉ before) (after : List Char) :
    (before ++ after).dropWhile (· ≠ separator) = after.dropWhile (· ≠ separator) :=
  List.dropWhile_append_of_pos fun _ hc => decide_eq_true (ne_of_mem_of_not_mem hc h)

theorem takeWhile_append_separator (h : separator ∉ before) (after : List Char) :
    (before ++ separator :: after).takeWhile (· ≠ separator) = before := by
  rw [takeWhile_append_of_not_mem h]
  simp

theorem takeWhile_eq_self_of_not_mem (h : separator ∉ cs) :
    cs.takeWhile (· ≠ separator) = cs := by
  simpa using takeWhile_append_of_not_mem h []

theorem takeWhile_ne_append (h : separator ∈ before) (after : List Char) :
    (before ++ after).takeWhile (· ≠ separator) = before.takeWhile (· ≠ separator) := by
  obtain ⟨piece, rest, rfl, outside⟩ := List.eq_append_cons_of_mem h
  rw [List.append_assoc, List.cons_append, takeWhile_append_separator outside,
    takeWhile_append_separator outside]

theorem takeWhile_of_splitAt {first : List Char} (h : splitAt separator cs = first :: pieces) :
    cs.takeWhile (· ≠ separator) = first := by
  have outside : separator ∉ first := not_mem_of_mem_splitAt (h ▸ List.mem_cons_self)
  rw [eq_append_of_splitAt h, takeWhile_append_of_not_mem outside]
  cases pieces <;> simp

theorem dropWhile_of_splitAt {first : List Char} (h : splitAt separator cs = first :: pieces) :
    cs.dropWhile (· ≠ separator) = pieces.flatMap (separator :: ·) := by
  have outside : separator ∉ first := not_mem_of_mem_splitAt (h ▸ List.mem_cons_self)
  rw [eq_append_of_splitAt h, dropWhile_append_of_not_mem outside]
  cases pieces <;> simp

theorem takeWhile_of_splitOnce (h : splitOnce separator cs = some (before, after)) :
    cs.takeWhile (· ≠ separator) = before := by
  have ⟨heq, hn⟩ := splitOnce_eq_some_iff.mp h
  rw [heq, takeWhile_append_separator hn]

theorem dropWhile_of_splitOnce (h : splitOnce separator cs = some (before, after)) :
    cs.dropWhile (· ≠ separator) = separator :: after := by
  have ⟨heq, hn⟩ := splitOnce_eq_some_iff.mp h
  rw [heq, dropWhile_append_of_not_mem hn]
  simp

theorem dropWhile_eq_nil_of_not_mem (h : separator ∉ cs) :
    cs.dropWhile (· ≠ separator) = [] := by
  rw [← List.append_nil cs, dropWhile_append_of_not_mem h, List.dropWhile_nil]

theorem splitOnce_eq_none_iff : splitOnce separator cs = none ↔ separator ∉ cs := by
  constructor
  case mpr => exact splitOnce_eq_none
  case mp =>
    intro h hm
    have ⟨before, after, heq, hn⟩ := List.eq_append_cons_of_mem hm
    rw [heq, splitOnce_append hn] at h
    cases h

theorem stripLast_isPrefix (last : Char) (cs : List Char) : stripLast last cs <+: cs := by
  fun_induction stripLast last cs
  case case1 => exact List.prefix_rfl
  case case2 => exact List.nil_prefix
  case case3 => exact List.prefix_rfl
  case case4 c d cs ih => exact List.prefix_cons_inj c |>.mpr ih

end Repin.Text
