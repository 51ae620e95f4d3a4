import Repin.Proofs.Version.Fault
import Repin.Proofs.Version.FloatingLines
/-!
# What a text lists

What is read from a text of floating expressions depends on the expressions of its lines alone, in their
order: the blanks around them, the comments behind them and the lines without any decide nothing.

Main statement: `FloatingList.readAlike_of_listed`.
-/
namespace Repin

variable {cs line lead blanks : List Char} {ls : List (List Char)}

theorem Text.trimStart_trimEnd (cs : List Char) : trimStart (trimEnd cs) = trim cs := by
  conv_rhs => rw [← trimEnd_append_trailing cs]
  rw [trim_append_blanks fun d hd => isBlank_of_mem_trailing hd, trim]
  symm
  apply trimEnd_eq_self
  intro c hc
  obtain ⟨front, whole⟩ := List.dropWhile_suffix (p := isBlank) (l := trimEnd cs)
  have last : (trimEnd cs).getLast? = some c := by
    rw [trimStart] at hc
    rw [← whole, List.getLast?_append, hc]
    rfl
  exact isBlank_getLast?_trimEnd last

theorem Text.trim_blanks_append (h : ∀ d ∈ lead, isBlank d) : trim (lead ++ cs) = trim cs := by
  rw [trim, trimStart_append h, trim]

namespace FloatingLine

theorem splitComment_fst (line : List Char) :
    (splitComment line).1 = Text.trimEnd (line.takeWhile (· ≠ '#')) := by
  unfold splitComment
  split
  case isTrue => rfl
  case isFalse hash => rw [Text.takeWhile_eq_self_of_not_mem hash]

theorem trim_takeWhile_append (h : ∀ d ∈ blanks, Text.isBlank d) :
    Text.trim ((line ++ blanks).takeWhile (· ≠ '#')) = Text.trim (line.takeWhile (· ≠ '#')) := by
  by_cases hash : '#' ∈ line
  case pos => rw [Text.takeWhile_ne_append hash]
  case neg =>
    rw [Text.takeWhile_append_of_not_mem hash,
      Text.takeWhile_eq_self_of_not_mem (hash_not_mem_of_isBlank h), Text.trim_append_blanks h,
      Text.takeWhile_eq_self_of_not_mem hash]

-- The carriage return at the end of a line counts as a blank.
theorem expression_eq (line : List Char) : expression line = Text.trim (line.takeWhile (· ≠ '#')) := by
  obtain ⟨ending, whole, returns⟩ := Text.exists_append_stripLast '\r' line
  have blanks : ∀ d ∈ ending, Text.isBlank d := fun d hd => returns d hd ▸ by decide
  conv_rhs => rw [whole]
  rw [trim_takeWhile_append blanks, expression, splitComment_fst, Text.trimStart_trimEnd]

theorem expression_append_blanks (h : ∀ d ∈ blanks, Text.isBlank d) :
    expression (line ++ blanks) = expression line := by
  rw [expression_eq, expression_eq, trim_takeWhile_append h]

theorem expression_blanks_append (h : ∀ d ∈ blanks, Text.isBlank d) :
    expression (blanks ++ line) = expression line := by
  rw [expression_eq, expression_eq, Text.takeWhile_append_of_not_mem (hash_not_mem_of_isBlank h),
    Text.trim_blanks_append h]

theorem expression_of_isBlank (h : ∀ d ∈ line, Text.isBlank d) : expression line = [] := by
  rw [← List.append_nil line, expression_blanks_append h]
  rfl

-- The expression that a line was read to.
def expr? (l : FloatingLine) : Option FloatingExpr :=
  l.entry?.map (·.expr)

theorem map_expr?_read (line : List Char) : expr? <$> read line =
    if (expression line).isEmpty then .ok none
    else some <$> FloatingExpr.parse (String.ofList (expression line)) := by
  unfold read expression
  dsimp only
  split
  case isTrue => rfl
  case isFalse => cases FloatingExpr.parse _ <;> rfl

end FloatingLine

namespace FloatingList

variable {text text' : String}

-- The expressions of the lines that have one.
def listed (ls : List (List Char)) : List (List Char) :=
  (ls.map FloatingLine.expression).filter (!·.isEmpty)

theorem filterMap_expr?_mapM_read (ls : List (List Char)) :
    (·.filterMap FloatingLine.expr?) <$> ls.mapM FloatingLine.read
      = (listed ls).mapM fun cs => FloatingExpr.parse (String.ofList cs) := by
  induction ls with
  | nil => rfl
  | cons line ls ih =>
    have first := FloatingLine.map_expr?_read line
    rw [listed] at ih ⊢
    rw [List.mapM_cons, List.map_cons]
    cases empty : (FloatingLine.expression line).isEmpty with
    | true =>
      rw [if_pos empty] at first
      obtain ⟨l, read, none⟩ := map_eq_ok.mp first
      rw [List.filter_cons_of_neg (by simp [empty]), ← ih, read, ok_bind]
      cases ls.mapM FloatingLine.read with
      | error => rfl
      | ok lines => exact congrArg Except.ok (List.filterMap_cons_none none)
    | false =>
      rw [empty, if_neg (by simp)] at first
      rw [List.filter_cons_of_pos (by simp [empty]), List.mapM_cons, ← ih]
      cases parsed : FloatingExpr.parse (String.ofList (FloatingLine.expression line)) with
      | error stop =>
        rw [parsed] at first
        rw [map_eq_error.mp first]
        rfl
      | ok expr =>
        rw [parsed] at first
        obtain ⟨l, read, some⟩ := map_eq_ok.mp first
        rw [read, ok_bind, ok_bind]
        cases ls.mapM FloatingLine.read with
        | error => rfl
        | ok lines => exact congrArg Except.ok (List.filterMap_cons_some some)

theorem map_expr_entries (lines : List FloatingLine) :
    (lines.filterMap FloatingLine.entry?).map (·.expr) = lines.filterMap FloatingLine.expr? :=
  List.map_filterMap ..

-- Two texts that are read to the same expressions, or fail in the same way.
inductive ReadAlike : Except ParseStop FloatingList → Except ParseStop FloatingList → Prop where
  | lists {l l' : FloatingList} : l.entries.map (·.expr) = l'.entries.map (·.expr) →
    ReadAlike (.ok l) (.ok l')
  | refused {f f' : ParseFailure} : f.reason = f'.reason →
    ReadAlike (.error (.refused f)) (.error (.refused f'))
  | fault {f : Fault} : ReadAlike (.error (.fault f)) (.error (.fault f))

theorem readAlike_of_listed (same : listed (Text.splitAt '\n' text.toList)
    = listed (Text.splitAt '\n' text'.toList)) : ReadAlike (parse text) (parse text') := by
  have read := filterMap_expr?_mapM_read (Text.splitAt '\n' text.toList)
  rw [same, ← filterMap_expr?_mapM_read] at read
  unfold parse
  cases hl : (Text.splitAt '\n' text.toList).mapM FloatingLine.read with
  | error stop =>
    rw [hl] at read
    rw [map_eq_error.mp read.symm]
    cases stop
    · exact .refused rfl
    · exact .fault
  | ok lines =>
    rw [hl] at read
    obtain ⟨lines', hl', exprs⟩ := map_eq_ok.mp read.symm
    rw [hl', ok_bind, ok_bind]
    simp only [← map_expr_entries] at exprs
    cases none : (lines.filterMap FloatingLine.entry?).isEmpty with
    | true =>
      rw [List.isEmpty_iff.mp none, List.map_nil, List.map_eq_nil_iff] at exprs
      rw [exprs]
      exact .refused rfl
    | false =>
      have ne : lines.filterMap FloatingLine.entry? ≠ [] := by simpa using none
      have ne' : lines'.filterMap FloatingLine.entry? ≠ [] := by
        intro none'
        rw [none', List.map_nil] at exprs
        exact ne (List.map_eq_nil_iff.mp exprs.symm)
      rw [if_neg (by simp), if_neg (by simpa using ne')]
      exact .lists exprs.symm

end FloatingList
end Repin
