/-!
# Byte offsets

Every offset into a text counts bytes of its UTF-8 form. A cut at an offset that lies inside a
character, or past the end, has no answer, so `splitAtByte` and `slice` return an option.
-/
namespace Repin.Text

-- Number of bytes of the UTF-8 form of a text.
def byteLength : List Char → Nat
  | [] => 0
  | c :: cs => c.utf8Size + byteLength cs

@[simp] theorem byteLength_nil : byteLength [] = 0 := rfl

@[simp] theorem byteLength_cons (c : Char) (cs : List Char) :
    byteLength (c :: cs) = c.utf8Size + byteLength cs := rfl

@[simp] theorem byteLength_append (as bs : List Char) :
    byteLength (as ++ bs) = byteLength as + byteLength bs := by
  induction as with
  | nil => simp
  | cons c cs ih => simp [ih, Nat.add_assoc]

-- Cuts a text at a byte offset.
def splitAtByte : Nat → List Char → Option (List Char × List Char)
  | 0, cs => some ([], cs)
  | _ + 1, [] => none
  | n + 1, c :: cs =>
    if c.utf8Size ≤ n + 1 then
      (splitAtByte (n + 1 - c.utf8Size) cs).map fun (before, after) => (c :: before, after)
    else
      none

theorem splitAtByte_zero (cs : List Char) : splitAtByte 0 cs = some ([], cs) := by
  cases cs <;> rfl

-- A cut loses nothing, and it lies where it was asked for.
theorem append_of_splitAtByte {n : Nat} {cs before after : List Char}
    (h : splitAtByte n cs = some (before, after)) :
    before ++ after = cs ∧ byteLength before = n := by
  induction cs generalizing n before after with
  | nil => cases n <;> simp_all [splitAtByte]
  | cons c cs ih =>
    match n with
    | 0 => simp_all [splitAtByte]
    | n + 1 =>
      simp only [splitAtByte] at h
      split at h
      · obtain ⟨⟨b, a⟩, hs, he⟩ := Option.map_eq_some_iff.1 h
        obtain ⟨rfl, rfl⟩ := he
        have := ih hs
        simp only [List.cons_append, this.1, byteLength_cons, this.2, true_and]
        omega
      · simp at h

-- A text can be cut after any of its beginnings.
theorem splitAtByte_append (before after : List Char) :
    splitAtByte (byteLength before) (before ++ after) = some (before, after) := by
  induction before with
  | nil => simp [splitAtByte_zero]
  | cons c cs ih =>
    have pos := c.utf8Size_pos
    obtain ⟨n, hn⟩ : ∃ n, byteLength (c :: cs) = n + 1 :=
      ⟨byteLength (c :: cs) - 1, by simp only [byteLength_cons]; omega⟩
    have size : c.utf8Size ≤ n + 1 := by rw [← hn, byteLength_cons]; omega
    have rest : n + 1 - c.utf8Size = byteLength cs := by rw [← hn, byteLength_cons]; omega
    rw [hn, List.cons_append, splitAtByte, if_pos size, rest, ih]
    rfl

-- The part of a text between two byte offsets.
def slice (start stop : Nat) (cs : List Char) : Option (List Char) := do
  guard (start ≤ stop)
  let (_, after) ← splitAtByte start cs
  let (middle, _) ← splitAtByte (stop - start) after
  return middle

end Repin.Text
