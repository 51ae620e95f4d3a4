import Repin.Proofs.Text.Bytes
import Repin.Text.Blank
/-!
# Trimming

What trimming leaves starts and ends with a character that is no blank, such a text is found again
between any blanks, and what is trimmed stands in the text behind the blanks at its start.
-/
namespace Repin.Text

variable {c : Char} {cs before after lead trail body : List Char}

-- Neither the first nor the last character is a blank.
structure IsTrimmed (cs : List Char) : Prop where
  head : ∀ c, cs.head? = some c → isBlank c = false
  last : ∀ c, cs.getLast? = some c → isBlank c = false

theorem isTrimmed_of_forall (h : ∀ c ∈ cs, isBlank c = false) : IsTrimmed cs where
  head c hc := h c (List.mem_of_head? hc)
  last c hc := h c (List.mem_of_getLast? hc)

-- Letters and digits are printed characters of one byte.
theorem toNat_of_isAlphanum (h : c.isAlphanum) : 0x30 ≤ c.toNat ∧ c.toNat ≤ 0x7A := by
  delta Char.isAlphanum Char.isAlpha Char.isUpper Char.isLower Char.isDigit at h
  simp only [Bool.or_eq_true, Bool.and_eq_true, decide_eq_true_eq, ge_iff_le,
    UInt32.le_iff_toNat_le] at h
  obtain (⟨low, high⟩ | ⟨low, high⟩) | ⟨low, high⟩ := h
  all_goals
    simp at low high
    omega

theorem isBlank_of_isAlphanum (h : c.isAlphanum) : isBlank c = false := by
  have range := toNat_of_isAlphanum h
  cases hb : isBlank c
  case false => rfl
  case true =>
    simp [isBlank] at hb
    omega

theorem isBlank_of_isDigit (h : c.isDigit) : isBlank c = false :=
  isBlank_of_isAlphanum (by simp [Char.isAlphanum, h])

theorem trimEnd_eq_nil_iff : trimEnd cs = [] ↔ ∀ c ∈ cs, isBlank c := by
  induction cs with
  | nil => simp [trimEnd]
  | cons c cs ih =>
    simp only [trimEnd, List.forall_mem_cons, ← ih]
    split <;> simp_all

theorem trimEnd_cons_of_ne_nil (h : trimEnd cs ≠ []) : trimEnd (c :: cs) = c :: trimEnd cs := by
  cases hs : trimEnd cs
  case nil => contradiction
  case cons d ds => simp [trimEnd, hs]

theorem trimEnd_isPrefix (cs : List Char) : trimEnd cs <+: cs :=
  ⟨trailing cs, trimEnd_append_trailing cs⟩

theorem trim_isInfix (cs : List Char) : trim cs <:+: cs :=
  (trimEnd_isPrefix _).isInfix.trans (List.dropWhile_suffix isBlank).isInfix

theorem mem_of_mem_trim (h : c ∈ trim cs) : c ∈ cs :=
  (trim_isInfix cs).subset h

theorem trimEnd_append_blanks (h : ∀ c ∈ trail, isBlank c) : trimEnd (cs ++ trail) = trimEnd cs := by
  induction cs with
  | nil => exact trimEnd_eq_nil_iff.mpr h
  | cons c cs ih => simp [trimEnd, ih]

theorem trimEnd_eq_self (h : ∀ c, cs.getLast? = some c → isBlank c = false) : trimEnd cs = cs := by
  induction cs with
  | nil => rfl
  | cons c cs ih =>
    cases cs with
    | nil => simp [trimEnd, h c rfl]
    | cons d ds =>
      have hs := ih fun e he => h e (by simpa using he)
      rw [trimEnd_cons_of_ne_nil (by simp [hs]), hs]

theorem isBlank_of_mem_trailing (h : c ∈ trailing cs) : isBlank c := by
  induction cs with
  | nil => simp [trailing, trimEnd] at h
  | cons d ds ih =>
    by_cases hd : trimEnd ds = []
    case pos =>
      have hb := trimEnd_eq_nil_iff.mp hd
      cases hc : isBlank d
      case false =>
        simp [trailing, trimEnd, hd, hc] at h
        exact hb c h
      case true =>
        simp [trailing, trimEnd, hd, hc] at h
        cases h
        case inl h => simpa [h] using hc
        case inr h => exact hb c h
    case neg =>
      apply ih
      simpa [trailing, trimEnd_cons_of_ne_nil hd] using h

theorem isBlank_getLast?_trimEnd (h : (trimEnd cs).getLast? = some c) : isBlank c = false := by
  induction cs with
  | nil => simp [trimEnd] at h
  | cons d ds ih =>
    by_cases hd : trimEnd ds = []
    case pos =>
      cases hc : isBlank d
      case false =>
        simp [trimEnd, hd, hc] at h
        exact h ▸ hc
      case true => simp [trimEnd, hd, hc] at h
    case neg =>
      apply ih
      rw [trimEnd_cons_of_ne_nil hd] at h
      cases hs : trimEnd ds
      case nil => contradiction
      case cons e es => simpa [hs] using h

theorem head?_trimEnd (h : trimEnd cs ≠ []) : (trimEnd cs).head? = cs.head? := by
  cases cs with
  | nil => rfl
  | cons c cs =>
    by_cases hs : trimEnd cs = []
    case pos =>
      cases hc : isBlank c <;> simp_all [trimEnd]
    case neg => simp [trimEnd_cons_of_ne_nil hs]

theorem isTrimmed_trim (cs : List Char) : IsTrimmed (trim cs) where
  head c hc := by
    have ne : trim cs ≠ [] := by rintro hn; simp [hn] at hc
    rw [trim, head?_trimEnd ne, trimStart] at hc
    have := List.head?_dropWhile_not isBlank cs
    simpa [hc] using this
  last c hc := isBlank_getLast?_trimEnd hc

theorem trimStart_append (hl : ∀ c ∈ lead, isBlank c) :
    trimStart (lead ++ cs) = trimStart cs :=
  List.dropWhile_append_of_pos hl

theorem trimStart_eq_self (h : ∀ c, cs.head? = some c → isBlank c = false) : trimStart cs = cs := by
  cases cs with
  | nil => rfl
  | cons c cs => simp [trimStart, h c rfl]

theorem takeWhile_isBlank_append (hl : ∀ c ∈ lead, isBlank c)
    (h : ∀ c, cs.head? = some c → isBlank c = false) : (lead ++ cs).takeWhile isBlank = lead := by
  rw [List.takeWhile_append_of_pos hl]
  cases cs with
  | nil => simp
  | cons c cs => simp [h c rfl]

theorem trailing_append (hl : ∀ c, cs.getLast? = some c → isBlank c = false)
    (ht : ∀ c ∈ trail, isBlank c) : trailing (cs ++ trail) = trail := by
  simp [trailing, trimEnd_append_blanks ht, trimEnd_eq_self hl]

-- A trimmed text is found again between any blanks.
theorem trim_append (hl : ∀ c ∈ lead, isBlank c) (hb : IsTrimmed body)
    (ht : ∀ c ∈ trail, isBlank c) : trim (lead ++ (body ++ trail)) = body := by
  rw [trim, trimStart_append hl]
  cases body with
  | nil =>
    apply trimEnd_eq_nil_iff.mpr
    intro c hc
    exact ht c ((List.dropWhile_suffix isBlank).mem hc)
  | cons d ds =>
    rw [trimStart_eq_self (fun c hc => hb.head c (by simpa using hc)), trimEnd_append_blanks ht,
      trimEnd_eq_self hb.last]

theorem trim_append_blanks (h : ∀ d ∈ after, isBlank d) : trim (cs ++ after) = trim cs := by
  unfold trim trimStart
  rw [List.dropWhile_append]
  split
  case isFalse => exact trimEnd_append_blanks h
  case isTrue hs =>
    rw [List.isEmpty_iff.mp hs]
    exact trimEnd_eq_nil_iff.mpr fun d hd => h d ((List.dropWhile_suffix isBlank).mem hd)

theorem trim_eq_nil_iff : trim cs = [] ↔ ∀ c ∈ cs, isBlank c := by
  rw [trim, trimEnd_eq_nil_iff]
  constructor
  case mp =>
    intro h c hc
    rw [← List.takeWhile_append_dropWhile (p := isBlank) (l := cs)] at hc
    rcases List.mem_append.mp hc with hc | hc
    case inl => exact List.all_eq_true.mp List.all_takeWhile c hc
    case inr => exact h c hc
  case mpr => exact fun h c hc => h c ((List.dropWhile_suffix isBlank).mem hc)

theorem trim_eq_self (h : IsTrimmed cs) : trim cs = cs := by
  have none : ∀ c ∈ ([] : List Char), isBlank c := by simp
  simpa using trim_append none h none

-- What trimming keeps of a text, by its bytes.
theorem slice_trimStart (cs : List Char) : slice (byteLength (cs.takeWhile isBlank))
    (byteLength (cs.takeWhile isBlank) + byteLength (trimStart cs)) cs = some (trimStart cs) := by
  refine slice_eq_some_iff.mpr ⟨cs.takeWhile isBlank, [], ?_, rfl, Nat.add_comm _ _⟩
  rw [List.append_nil]
  exact List.takeWhile_append_dropWhile.symm

theorem byteLength_sub_trimStart (cs : List Char) :
    byteLength cs - byteLength (trimStart cs) = byteLength (cs.takeWhile isBlank) := by
  have halves := congrArg byteLength (@List.takeWhile_append_dropWhile _ isBlank cs)
  rw [byteLength_append] at halves
  rw [trimStart]
  omega

theorem slice_trim (cs : List Char) :
    slice (byteLength cs - byteLength (trimStart cs))
      (byteLength cs - byteLength (trimStart cs) + byteLength (trim cs)) cs = some (trim cs) := by
  rw [byteLength_sub_trimStart]
  have nested := slice_slice (slice_trimStart cs) (slice_isPrefix (trimEnd_isPrefix (trimStart cs)))
  rwa [Nat.add_zero] at nested

end Repin.Text
