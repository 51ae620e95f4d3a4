import Repin.Text.Bytes
/-!
# Parts of a text by their bytes

A text has one beginning of each length in bytes, so a part that a cut gives is the part that stands
between the two offsets.
-/
namespace Repin.Text

variable {as bs cs ds middle : List Char} {start stop n : Nat}

theorem byteLength_eq_zero_iff : byteLength cs = 0 ↔ cs = [] := by
  cases cs with
  | nil => simp
  | cons c cs =>
    have := c.utf8Size_pos
    simp only [byteLength_cons, reduceCtorEq, iff_false]
    omega

-- Of two beginnings of a text the shorter one is the beginning of the other.
theorem exists_append_of_byteLength_le (h : as ++ bs = cs ++ ds)
    (hl : byteLength as ≤ byteLength cs) : ∃ es, cs = as ++ es ∧ bs = es ++ ds := by
  cases List.append_eq_append_iff.mp h
  case inl h =>
    obtain ⟨es, rfl, rfl⟩ := h
    exact ⟨es, rfl, rfl⟩
  case inr h =>
    obtain ⟨es, rfl, rfl⟩ := h
    simp only [byteLength_append] at hl
    have none : es = [] := byteLength_eq_zero_iff.mp (by omega)
    exact ⟨[], by simp [none]⟩

theorem append_inj_of_byteLength (h : as ++ bs = cs ++ ds) (hl : byteLength as = byteLength cs) :
    as = cs ∧ bs = ds := by
  have ⟨es, hc, hb⟩ := exists_append_of_byteLength_le h (Nat.le_of_eq hl)
  rw [hc, byteLength_append] at hl
  have none : es = [] := byteLength_eq_zero_iff.mp (by omega)
  simp [hc, hb, none]

theorem slice_of_lt (lt : stop < start) : slice start stop cs = none := by
  have fails : (guard (start ≤ stop) : Option Unit) = none := if_neg (by omega)
  rw [slice, fails]
  rfl

theorem slice_of_le (le : start ≤ stop) : slice start stop cs
    = (splitAtByte start cs).bind fun p => (splitAtByte (stop - start) p.2).bind (some ·.1) := by
  have holds : (guard (start ≤ stop) : Option Unit) = some () := if_pos le
  rw [slice, holds]
  simp only [Option.bind_eq_bind, Option.bind_some, Option.pure_def]

theorem slice_eq_some_iff : slice start stop cs = some middle ↔ ∃ before after,
    cs = before ++ (middle ++ after) ∧ byteLength before = start ∧
      byteLength middle + start = stop := by
  constructor
  case mp =>
    intro h
    by_cases le : start ≤ stop
    case neg =>
      rw [slice_of_lt (by omega)] at h
      cases h
    case pos =>
      rw [slice_of_le le, Option.bind_eq_some_iff] at h
      obtain ⟨⟨before, rest⟩, hb, h⟩ := h
      obtain ⟨⟨m, after⟩, hm, he⟩ := Option.bind_eq_some_iff.mp h
      cases he
      obtain ⟨whole, front⟩ := append_of_splitAtByte hb
      obtain ⟨part, length⟩ := append_of_splitAtByte hm
      dsimp only at length ⊢
      exact ⟨before, after, by rw [part, whole], front, by omega⟩
  case mpr =>
    rintro ⟨before, after, rfl, rfl, rfl⟩
    have length : byteLength middle + byteLength before - byteLength before = byteLength middle := by
      omega
    rw [slice_of_le (by omega)]
    simp [splitAtByte_append, length]

theorem le_of_slice (h : slice start stop cs = some middle) : start ≤ stop ∧ stop ≤ byteLength cs := by
  have ⟨before, after, hc, hb, hm⟩ := slice_eq_some_iff.mp h
  rw [hc]
  simp only [byteLength_append]
  omega

theorem slice_append (front : List Char) (h : slice start stop cs = some middle) :
    slice (byteLength front + start) (byteLength front + stop) (front ++ cs) = some middle := by
  have ⟨before, after, hc, hb, hm⟩ := slice_eq_some_iff.mp h
  exact slice_eq_some_iff.mpr ⟨front ++ before, after, by simp [hc], by simp [hb], by omega⟩

theorem slice_append_right (h : slice start stop cs = some middle) (back : List Char) :
    slice start stop (cs ++ back) = some middle := by
  have ⟨before, after, hc, hb, hm⟩ := slice_eq_some_iff.mp h
  exact slice_eq_some_iff.mpr ⟨before, after ++ back, by simp [hc], hb, hm⟩

-- A part of a part is a part.
theorem slice_slice {part : List Char} {first last : Nat} (h : slice start stop cs = some middle)
    (hp : slice first last middle = some part) :
    slice (start + first) (start + last) cs = some part := by
  have ⟨before, after, hc, hb, hm⟩ := slice_eq_some_iff.mp h
  have ⟨before', after', hc', hb', hm'⟩ := slice_eq_some_iff.mp hp
  subst hc hc' hb hb'
  apply slice_eq_some_iff.mpr
  refine ⟨before ++ before', after' ++ after, by simp, by simp, by omega⟩

theorem slice_isPrefix (h : middle <+: cs) : slice 0 (byteLength middle) cs = some middle := by
  obtain ⟨rest, rfl⟩ := h
  exact slice_eq_some_iff.mpr ⟨[], rest, rfl, rfl, rfl⟩

-- Behind a beginning of a text, a part of it is a beginning of the rest.
theorem slice_append_eq_some_iff (as : List Char) :
    slice (byteLength as) (byteLength as + byteLength bs) (as ++ cs) = some bs ↔ bs <+: cs := by
  rw [slice_eq_some_iff]
  constructor
  case mp =>
    rintro ⟨before, after, whole, first, _⟩
    obtain ⟨rfl, rfl⟩ := append_inj_of_byteLength whole.symm first
    exact List.prefix_append bs after
  case mpr =>
    rintro ⟨after, rfl⟩
    exact ⟨as, after, rfl, rfl, Nat.add_comm ..⟩

-- An offset that lies in a text, and not inside of a character.
def IsBoundary (cs : List Char) (n : Nat) : Prop :=
  ∃ before after, before ++ after = cs ∧ byteLength before = n

theorem IsBoundary.le (h : IsBoundary cs n) : n ≤ byteLength cs := by
  obtain ⟨before, after, rfl, rfl⟩ := h
  simp

-- A part can be cut out between any two boundaries.
theorem exists_slice_iff (le : start ≤ stop) :
    (∃ middle, slice start stop cs = some middle) ↔ IsBoundary cs start ∧ IsBoundary cs stop := by
  constructor
  case mp =>
    rintro ⟨middle, h⟩
    have ⟨before, after, whole, first, length⟩ := slice_eq_some_iff.mp h
    refine ⟨⟨before, middle ++ after, whole.symm, first⟩, before ++ middle, after, by simp [whole], ?_⟩
    rw [byteLength_append]
    omega
  case mpr =>
    rintro ⟨⟨before, after, whole, first⟩, before', after', whole', last⟩
    have ⟨middle, front, _⟩ := exists_append_of_byteLength_le (whole.trans whole'.symm) (by omega)
    refine ⟨middle, slice_eq_some_iff.mpr ⟨before, after', by rw [← whole', front]; simp, first, ?_⟩⟩
    rw [front, byteLength_append] at last
    omega

theorem splitAtByte_eq_none_iff :
    splitAtByte n cs = none ↔ ∀ before after, before ++ after = cs → byteLength before ≠ n := by
  constructor
  case mp =>
    rintro h before after rfl rfl
    rw [splitAtByte_append] at h
    cases h
  case mpr =>
    intro h
    cases hs : splitAtByte n cs with
    | none => rfl
    | some parts =>
      have ⟨whole, length⟩ := append_of_splitAtByte hs
      exact absurd length (h _ _ whole)

-- Whether a text ends in a character of three bytes or more, or in a character of one byte behind one
-- of several.
def EndsInside (cs : List Char) : Prop :=
  match cs.reverse with
  | [] => False
  | [d] => 3 ≤ d.utf8Size
  | d :: c :: _ => 3 ≤ d.utf8Size ∨ d.utf8Size = 1 ∧ 2 ≤ c.utf8Size

instance : Decidable (EndsInside cs) := by
  unfold EndsInside
  split <;> infer_instance

theorem byteLength_reverse : byteLength cs.reverse = byteLength cs := by
  induction cs with
  | nil => rfl
  | cons c cs ih => simp [ih, Nat.add_comm]

-- The offset two bytes before the end of a text, or its start when the text is shorter, lies inside a
-- character exactly when the text ends so. The cases are read from the end.
theorem splitAtByte_sub_two_eq_none_iff :
    splitAtByte (byteLength cs - 2) cs = none ↔ EndsInside cs := by
  have turned : (∀ before after, before ++ after = cs → byteLength before ≠ byteLength cs - 2) ↔
      ∀ as bs, as ++ bs = cs.reverse → byteLength bs ≠ byteLength cs.reverse - 2 := by
    constructor
    case mp =>
      intro h as bs hs
      have := h bs.reverse as.reverse (by rw [← List.reverse_append, hs, List.reverse_reverse])
      rwa [byteLength_reverse] at this ⊢
    case mpr =>
      intro h as bs hs
      have := h bs.reverse as.reverse (by rw [← List.reverse_append, hs])
      rwa [byteLength_reverse, byteLength_reverse] at this
  rw [splitAtByte_eq_none_iff, turned, EndsInside]
  match cs.reverse with
  | [] => simp
  | [d] =>
    have pos := d.utf8Size_pos
    simp only [List.append_eq_singleton_iff]
    constructor
    case mp =>
      intro h
      have := h [d] [] (by simp)
      simp only [byteLength_cons, byteLength_nil] at this
      omega
    case mpr =>
      rintro h as bs (⟨rfl, rfl⟩ | ⟨rfl, rfl⟩) <;> simp only [byteLength_cons, byteLength_nil] <;>
        omega
  | d :: c :: rest =>
    have pos := d.utf8Size_pos
    have pos' := c.utf8Size_pos
    constructor
    case mp =>
      intro h
      have one := h [d] (c :: rest) rfl
      have two := h [d, c] rest rfl
      simp only [byteLength_cons] at one two
      omega
    case mpr =>
      intro h as bs hs
      cases as with
      | nil =>
        simp only [List.nil_append] at hs
        subst hs
        simp only [byteLength_cons]
        omega
      | cons e as =>
        cases as with
        | nil =>
          cases hs
          simp only [byteLength_cons]
          omega
        | cons e as =>
          simp only [List.cons_append, List.cons.injEq] at hs
          obtain ⟨rfl, rfl, rfl⟩ := hs
          simp only [byteLength_cons, byteLength_append]
          omega

end Repin.Text
