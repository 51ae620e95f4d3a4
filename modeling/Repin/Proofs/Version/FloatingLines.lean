import Mathlib.Data.List.TakeWhile
import Repin.Proofs.Text.Lines
import Repin.Proofs.Version.FloatingShape
/-!
# A list moved to a channel

The text of a list for a channel is read as a list again. A sole entry is replaced in its line, and all
else in the value stays as it was. Several entries gain one, in a line of its own behind them: only
blanks are removed from the line that was the last one, so its comment ends where its text ends.

Main statement: `FloatingList.upgraded_moves`.
-/
namespace Repin

variable {c : Channel} {line body tail : List Char} {comment : Option (List Char)}

namespace FloatingLine

-- What stands behind an expression: blanks, and a comment behind them.
inductive IsTail : List Char → Option (List Char) → Prop where
  | blank {tail : List Char} : (∀ d ∈ tail, Text.isBlank d) → IsTail tail none
  | comment {lead more : List Char} : (∀ d ∈ lead, Text.isBlank d) →
      IsTail (lead ++ '#' :: more) (some (lead ++ '#' :: more))

theorem hash_not_mem_of_isBlank {cs : List Char} (h : ∀ d ∈ cs, Text.isBlank d) : '#' ∉ cs :=
  fun hm => absurd (h _ hm) (by decide)

theorem splitComment_append (hash : '#' ∉ body) (last : ∀ d ∈ body.getLast?, Text.isBlank d = false)
    (h : IsTail tail comment) : splitComment (body ++ tail) = (body, comment) := by
  unfold splitComment
  cases h with
  | blank blanks =>
    have outside : '#' ∉ body ++ tail := by simp [hash, hash_not_mem_of_isBlank blanks]
    rw [if_neg outside, Text.trimEnd_append_blanks blanks, Text.trimEnd_eq_self last]
  | @comment lead more blanks =>
    have outside : '#' ∉ body ++ lead := by simp [hash, hash_not_mem_of_isBlank blanks]
    rw [← List.append_assoc, if_pos (by simp), Text.takeWhile_append_separator outside,
      Text.trimEnd_append_blanks blanks, Text.trimEnd_eq_self last]
    simp

theorem exists_splitComment (line : List Char) : ∃ body tail comment, line = body ++ tail ∧
    splitComment line = (body, comment) ∧ '#' ∉ body ∧
      (∀ d ∈ body.getLast?, Text.isBlank d = false) ∧ IsTail tail comment := by
  have last {cs : List Char} : ∀ d ∈ (Text.trimEnd cs).getLast?, Text.isBlank d = false :=
    fun d hd => Text.isBlank_getLast?_trimEnd hd
  have outside {cs : List Char} (h : '#' ∉ cs) : '#' ∉ Text.trimEnd cs :=
    fun hm => h ((Text.trimEnd_isPrefix cs).mem hm)
  by_cases hash : '#' ∈ line
  case neg =>
    refine ⟨_, Text.trailing line, none, (Text.trimEnd_append_trailing line).symm, if_neg hash,
      outside hash, last, .blank fun d hd => Text.isBlank_of_mem_trailing hd⟩
  case pos =>
    obtain ⟨front, more, rfl, hf⟩ := List.eq_append_cons_of_mem hash
    have whole : front ++ '#' :: more
        = Text.trimEnd front ++ (Text.trailing front ++ '#' :: more) := by
      rw [← List.append_assoc, Text.trimEnd_append_trailing]
    have isTail : IsTail (Text.trailing front ++ '#' :: more) _ :=
      .comment fun d hd => Text.isBlank_of_mem_trailing hd
    refine ⟨_, _, _, whole, ?_, outside hf, last, isTail⟩
    rw [whole]
    exact splitComment_append (outside hf) last isTail

-- The parts of a line with an expression.
structure IsEntry (line indent written rest : List Char) (comment : Option (List Char)) : Prop where
  whole : line = indent ++ (written ++ rest)
  indent : ∀ d ∈ indent, Text.isBlank d
  ne_nil : written ≠ []
  trimmed : Text.IsTrimmed written
  hash : '#' ∉ written
  tail : IsTail (Text.stripLast '\r' rest) comment

variable {indent written rest : List Char}

namespace IsEntry

theorem last (h : IsEntry line indent written rest comment) :
    ∀ d ∈ (indent ++ written).getLast?, Text.isBlank d = false := by
  rw [List.getLast?_append_of_ne_nil _ h.ne_nil]
  exact h.trimmed.last

theorem splitComment_eq (h : IsEntry line indent written rest comment) :
    splitComment (Text.stripLast '\r' line) = (indent ++ written, comment) := by
  rw [h.whole, ← List.append_assoc, Text.stripLast_append_of_printed h.last (by decide)]
  refine splitComment_append ?_ h.last h.tail
  simp [h.hash, hash_not_mem_of_isBlank h.indent]

-- Reading a line is reading its expression.
theorem read_eq (h : IsEntry line indent written rest comment) :
    read line = (fun e => entry (String.ofList indent) (String.ofList written) (String.ofList rest)
      ⟨e, comment.map String.ofList⟩) <$> FloatingExpr.parse (String.ofList written) := by
  have start : Text.trimStart (indent ++ written) = written := by
    rw [Text.trimStart_append h.indent, Text.trimStart_eq_self h.trimmed.head]
  have lead := Text.takeWhile_isBlank_append h.indent h.trimmed.head
  have behind : line.drop (indent ++ written).length = rest := by
    rw [h.whole, ← List.append_assoc, List.drop_left]
  unfold read
  simp only [h.splitComment_eq, start, lead, behind]
  rw [if_neg (by simpa using h.ne_nil)]
  cases FloatingExpr.parse (String.ofList written) <;> rfl

end IsEntry

theorem isEntry_of_read {indent written rest : String} {e : FloatingEntry}
    (h : read line = .ok (.entry indent written rest e)) :
    IsEntry line indent.toList written.toList rest.toList (e.comment.map String.toList) ∧
      FloatingExpr.parse written = .ok e.expr := by
  obtain ⟨body, tail, comment, kept, cut, hash, last, isTail⟩ :=
    exists_splitComment (Text.stripLast '\r' line)
  have parts : body.takeWhile Text.isBlank ++ Text.trimStart body = body :=
    List.takeWhile_append_dropWhile
  have printed := List.head?_dropWhile_not Text.isBlank body
  obtain ⟨rest, rfl⟩ : body <+: line := by
    have front := Text.stripLast_isPrefix '\r' line
    rw [kept] at front
    exact (List.prefix_append ..).trans front
  unfold read at h
  simp only [cut, List.drop_left] at h
  rw [Text.stripLast_append_of_printed last (by decide), List.append_cancel_left_eq] at kept
  split at h
  case isTrue => cases h
  case isFalse ne =>
    obtain ⟨expr, parsed, h⟩ := bind_eq_ok.mp h
    cases h
    simp only [String.toList_ofList, Option.map_map]
    refine ⟨?_, parsed⟩
    have same : comment.map (String.toList ∘ String.ofList) = comment := by
      cases comment <;> simp
    rw [same]
    exact {
      whole := by rw [← List.append_assoc, parts]
      indent := List.all_eq_true.mp List.all_takeWhile
      ne_nil := by simpa using ne
      trimmed := {
        head := by
          intro d hd
          rw [Text.trimStart] at hd
          simpa [hd] using printed
        last := by
          intro d hd
          apply last
          rw [← parts, List.getLast?_append_of_ne_nil _ (by simpa using ne)]
          exact hd
      }
      hash := fun hm => hash ((List.dropWhile_suffix Text.isBlank).mem hm)
      tail := kept ▸ isTail
    }

-- A line without an expression: nothing but blanks in front of its comment.
def IsBare (line : List Char) : Prop :=
  ∀ d ∈ line.takeWhile (· ≠ '#'), Text.isBlank d

theorem eq_nil_of_isBlank (h : ∀ d ∈ body, Text.isBlank d)
    (last : ∀ d ∈ body.getLast?, Text.isBlank d = false) : body = [] := by
  by_contra ne
  have ⟨d, hd⟩ := Option.ne_none_iff_exists'.mp (mt List.getLast?_eq_none_iff.mp ne)
  simpa [last d hd] using h d (List.mem_of_getLast? hd)

theorem subset_takeWhile (h : '#' ∉ body) (rest : List Char) :
    ∀ d ∈ body, d ∈ (body ++ rest).takeWhile (· ≠ '#') := by
  intro d hd
  rw [Text.takeWhile_append_of_not_mem h]
  exact List.mem_append_left _ hd

theorem IsBare.read_eq (h : IsBare line) : read line = .ok (.blank (String.ofList line)) := by
  obtain ⟨body, tail, comment, kept, cut, hash, last, _⟩ :=
    exists_splitComment (Text.stripLast '\r' line)
  obtain ⟨rest, rfl⟩ : body <+: line := by
    have front := Text.stripLast_isPrefix '\r' line
    rw [kept] at front
    exact (List.prefix_append ..).trans front
  have none : body = [] :=
    eq_nil_of_isBlank (fun d hd => h d (subset_takeWhile hash rest d hd)) last
  unfold read
  simp only [cut]
  rw [if_pos (by simp [none, Text.trimStart])]

theorem isBare_of_read {text : String} (h : read line = .ok (.blank text)) : IsBare line := by
  obtain ⟨body, tail, comment, kept, cut, hash, last, isTail⟩ :=
    exists_splitComment (Text.stripLast '\r' line)
  have none : body = [] := by
    unfold read at h
    simp only [cut] at h
    split at h
    case isTrue start =>
      refine eq_nil_of_isBlank (fun d hd => ?_) last
      exact List.dropWhile_eq_nil_iff.mp (List.isEmpty_iff.mp start) d hd
    case isFalse =>
      obtain ⟨_, _, h⟩ := bind_eq_ok.mp h
      cases h
  obtain ⟨returns, whole, same⟩ := Text.exists_append_stripLast '\r' line
  rw [kept, none, List.nil_append] at whole
  intro d hd
  cases isTail with
  | blank blanks =>
    rw [whole] at hd
    obtain hd | hd := List.mem_append.mp ((List.takeWhile_prefix _).mem hd)
    · exact blanks d hd
    · rw [same d hd]
      decide
  | comment blanks =>
    rw [whole, List.append_assoc, List.cons_append,
      Text.takeWhile_append_separator (hash_not_mem_of_isBlank blanks)] at hd
    exact blanks d hd

end FloatingLine

-- Entries that differ in the blanks at the end of their comments only.
structure FloatingEntry.SameButEnd (e e' : FloatingEntry) : Prop where
  expr : e'.expr = e.expr
  comment : e'.comment.map (Text.trimEnd ·.toList) = e.comment.map (Text.trimEnd ·.toList)

namespace FloatingLine

variable {x t u indent written rest : List Char} {l : FloatingLine}

theorem IsBare.exchange (h : IsBare (x ++ t)) (hu : ∀ d ∈ u, Text.isBlank d) : IsBare (x ++ u) := by
  by_cases hash : '#' ∈ x
  case pos =>
    rw [IsBare, Text.takeWhile_ne_append hash] at h ⊢
    exact h
  case neg =>
    intro d hd
    obtain hd | hd := List.mem_append.mp ((List.takeWhile_prefix _).mem hd)
    · exact h d (subset_takeWhile hash t d hd)
    · exact hu d hd

theorem IsTail.exchange (h : IsTail (x ++ t) comment) (ht : ∀ d ∈ t, Text.isBlank d)
    (hu : ∀ d ∈ u, Text.isBlank d) : ∃ comment', IsTail (x ++ u) comment' ∧
      comment'.map Text.trimEnd = comment.map Text.trimEnd := by
  generalize heq : x ++ t = tail at h
  cases h with
  | blank blanks =>
    refine ⟨none, .blank fun d hd => ?_, rfl⟩
    obtain hd | hd := List.mem_append.mp hd
    · exact blanks d (heq ▸ List.mem_append_left t hd)
    · exact hu d hd
  | @comment lead more blanks =>
    have hash : '#' ∈ x := by
      have whole : '#' ∈ x ++ t := by simp [heq]
      exact (List.mem_append.mp whole).resolve_right (hash_not_mem_of_isBlank ht)
    obtain ⟨front, back, rfl, hf⟩ := List.eq_append_cons_of_mem hash
    -- both texts are cut at their first mark
    have same : front = lead := by
      have cut := congrArg (List.takeWhile (· ≠ '#')) heq
      rwa [List.append_assoc, List.cons_append, Text.takeWhile_append_separator hf,
        Text.takeWhile_append_separator (hash_not_mem_of_isBlank blanks)] at cut
    refine ⟨some (front ++ '#' :: (back ++ u)), ?_, ?_⟩
    · rw [List.append_assoc, List.cons_append]
      exact .comment (same ▸ blanks)
    · have ends : Text.trimEnd (front ++ '#' :: (back ++ u))
          = Text.trimEnd (front ++ '#' :: back) := by
        rw [← List.cons_append, ← List.append_assoc, Text.trimEnd_append_blanks hu]
      rw [← heq, Option.map_some, Option.map_some, Text.trimEnd_append_blanks ht, ends]

theorem IsEntry.exchange (h : IsEntry (x ++ t) indent written rest comment)
    (last : ∀ d ∈ x.getLast?, Text.isBlank d = false) (ht : ∀ d ∈ t, Text.isBlank d)
    (hu : ∀ d ∈ u, Text.isBlank d) : ∃ rest' comment', IsEntry (x ++ u) indent written rest' comment' ∧
      comment'.map Text.trimEnd = comment.map Text.trimEnd := by
  have kept {bs : List Char} (h : ∀ d ∈ bs, Text.isBlank d) :
      ∀ d ∈ Text.stripLast '\r' bs, Text.isBlank d :=
    fun d hd => h d ((Text.stripLast_isPrefix _ _).mem hd)
  -- the expression ends in the front, which has all that is printed
  have ⟨behind, hx, hr⟩ : ∃ behind, x = (indent ++ written) ++ behind ∧ rest = behind ++ t := by
    have whole := h.whole
    rw [← List.append_assoc] at whole
    obtain ⟨between, hw, hb⟩ | ⟨between, hx, hr⟩ := List.append_eq_append_iff.mp whole
    case inr => exact ⟨between, hx, hr⟩
    case inl =>
      have none : between = [] := by
        refine eq_nil_of_isBlank (fun d hd => ht d (hb ▸ List.mem_append_left _ hd)) fun d hd => ?_
        apply h.last
        rw [hw, List.getLast?_append, hd]
        rfl
      exact ⟨[], by simp [hw, none], by simp [hb, none]⟩
  subst hx hr
  have last : ∀ d ∈ behind.getLast?, Text.isBlank d = false := by
    intro d hd
    apply last
    rw [List.getLast?_append, hd]
    rfl
  have tail := h.tail
  rw [Text.stripLast_append_of_printed last (by decide)] at tail
  obtain ⟨comment', tail', same⟩ := tail.exchange (kept ht) (kept hu)
  refine ⟨behind ++ u, comment', ⟨by simp, h.indent, h.ne_nil, h.trimmed, h.hash, ?_⟩, same⟩
  rwa [Text.stripLast_append_of_printed last (by decide)]

-- A line with other blanks at its end gives the same to its value, but for the end of a comment.
theorem exists_read_exchange (h : read (x ++ t) = .ok l)
    (last : ∀ d ∈ x.getLast?, Text.isBlank d = false) (ht : ∀ d ∈ t, Text.isBlank d)
    (hu : ∀ d ∈ u, Text.isBlank d) : ∃ l', read (x ++ u) = .ok l' ∧ l'.indent? = l.indent? ∧
      Option.Rel FloatingEntry.SameButEnd l.entry? l'.entry? := by
  cases l with
  | blank text => exact ⟨_, ((isBare_of_read h).exchange hu).read_eq, rfl, .none⟩
  | entry indent written rest e =>
    have ⟨isEntry, parsed⟩ := isEntry_of_read h
    obtain ⟨rest', comment', isEntry', same⟩ := isEntry.exchange last ht hu
    have read := isEntry'.read_eq
    simp only [String.ofList_toList, parsed] at read
    refine ⟨_, read, rfl, .some ⟨rfl, ?_⟩⟩
    cases comment' <;> cases hc : e.comment <;> simp_all

theorem isTail_of_isBlank (h : ∀ d ∈ tail, Text.isBlank d) : IsTail (Text.stripLast '\r' tail) none :=
  .blank fun d hd => h d ((Text.stripLast_isPrefix _ _).mem hd)

theorem isEntry_upgraded (lead : ∀ d ∈ indent, Text.isBlank d)
    (tail : IsTail (Text.stripLast '\r' rest) comment) (e : FloatingExpr) :
    IsEntry (indent ++ ((e.upgraded c).toList ++ rest)) indent (e.upgraded c).toList rest comment where
  whole := rfl
  indent := lead
  ne_nil := FloatingExpr.upgraded_ne_nil
  trimmed := Text.isTrimmed_of_forall FloatingExpr.isBlank_of_mem_upgraded
  hash := FloatingExpr.not_mem_upgraded (by decide) (by decide) (by decide) (by decide)
  tail := tail

-- An expression for a channel is read with whatever comment stands behind it.
theorem read_upgraded (lead : ∀ d ∈ indent, Text.isBlank d)
    (tail : IsTail (Text.stripLast '\r' rest) comment) (release : c.sdk.build = none)
    (e : FloatingExpr) : read (indent ++ ((e.upgraded c).toList ++ rest))
      = .ok (.entry (String.ofList indent) (e.upgraded c) (String.ofList rest)
          ⟨e.moved c, comment.map String.ofList⟩) := by
  have parsed : FloatingExpr.parse (e.upgraded c) = .ok (e.moved c) :=
    mapError_eq_ok.mpr (e.read_upgraded release)
  rw [(isEntry_upgraded lead tail e).read_eq, String.ofList_toList, parsed]
  rfl

end FloatingLine

namespace FloatingList

variable {text new : String} {l l' : FloatingList} {newline : Newline} {lines : List FloatingLine}

theorem parse_of_lines (h : List.Forall₂ (fun line l => FloatingLine.read line = .ok l)
      (Text.splitAt '\n' text.toList) lines) (ne : lines.filterMap FloatingLine.entry? ≠ []) :
    parse text = .ok ⟨lines⟩ := by
  unfold parse
  rw [mapM_eq_ok.mpr h, ok_bind, if_neg (by simpa using ne)]
  rfl

-- The indentations of the lines that hold an expression.
def indents (l : FloatingList) : List String :=
  l.lines.filterMap FloatingLine.indent?

-- What becomes of a list that is moved to a channel.
inductive Moved (c : Channel) (l l' : FloatingList) : Prop where
  | replaced {before after : List FloatingLine} {indent written rest : String} {e e' : FloatingExpr}
    {comment : Option String} :
    l.lines = before ++ .entry indent written rest ⟨e, comment⟩ :: after → l.entries = [⟨e, comment⟩] →
      l'.lines = before ++ .entry indent (e.upgraded c) rest ⟨e', comment⟩ :: after →
        l'.entries = [⟨e', comment⟩] → e.InStyle c e' → Moved c l l'
  | gained {first : List FloatingEntry} {last last' new : FloatingEntry}
    {highest : FloatingEntry} {indent : String} :
    l.entries = first ++ [last] → first ≠ [] → l'.entries = first ++ [last', new] →
      last.SameButEnd last' → new.comment = none → l.IsHighest highest →
        highest.expr.InStyle c new.expr → l.indents.getLast? = some indent →
          l'.indents = l.indents ++ [indent] → Moved c l l'

theorem Moved.isAtLeast (h : Moved c l l') : l'.isAtLeast c := by
  cases h with
  | replaced _ _ _ entries style => simp [FloatingList.isAtLeast, entries, style.isAtLeast]
  | gained _ _ entries _ _ _ style => simp [FloatingList.isAtLeast, entries, style.isAtLeast]

theorem read_moved_of_blank {line : FloatingLine} (h : parse text = .ok l) (hm : line ∈ l.lines)
    (blank : line.entry? = none) : FloatingLine.read (line.moved c) = .ok line := by
  have read := read_text_of_mem h hm
  cases line with
  | blank => rwa [FloatingLine.text] at read
  | entry => cases blank

-- The line of an entry, with its expression written for a channel.
theorem read_moved_of_entry {indent written rest : String} {e : FloatingEntry} (h : parse text = .ok l)
    (hm : .entry indent written rest e ∈ l.lines) (release : c.sdk.build = none) :
    FloatingLine.read (FloatingLine.moved c (.entry indent written rest e))
      = .ok (.entry indent (e.expr.upgraded c) rest ⟨e.expr.moved c, e.comment⟩) := by
  have ⟨isEntry, _⟩ := FloatingLine.isEntry_of_read (read_text_of_mem h hm)
  have read := FloatingLine.read_upgraded isEntry.indent isEntry.tail release e.expr
  have same : (e.comment.map String.toList).map String.ofList = e.comment := by
    cases e.comment <;> simp
  rwa [same, String.ofList_toList, String.ofList_toList] at read

-- The line of a sole entry, and the others without any.
structure IsSole (l : FloatingList) (before : List FloatingLine) (indent written rest : String)
    (e : FloatingEntry) (after : List FloatingLine) : Prop where
  lines : l.lines = before ++ .entry indent written rest e :: after
  others : ∀ line ∈ before ++ after, line.entry? = none

theorem exists_isSole (h : l.entries.length = 1) : ∃ before indent written rest e after,
    l.IsSole before indent written rest e after := by
  obtain ⟨e, he⟩ := List.length_eq_one_iff.mp h
  obtain ⟨before, line, after, lines, hb, hl, ha⟩ := List.filterMap_eq_cons_iff.mp he
  cases line with
  | blank => cases hl
  | entry indent written rest =>
    refine ⟨before, indent, written, rest, _, after, lines, fun line hm => ?_⟩
    obtain hm | hm := List.mem_append.mp hm
    · exact hb line hm
    · exact List.filterMap_eq_nil_iff.mp ha line hm

theorem length_entries_of_not_isMultiLine (h : parse text = .ok l) (sole : l.isMultiLine = false) :
    l.entries.length = 1 := by
  have ne := List.length_pos_iff.mpr (entries_ne_nil h)
  have few : ¬ 1 < l.entries.length := of_decide_eq_false sole
  omega

namespace IsSole

variable {before after : List FloatingLine} {indent written rest : String} {e : FloatingEntry}

theorem entries (h : l.IsSole before indent written rest e after) : l.entries = [e] := by
  obtain ⟨hb, ha⟩ := List.forall_mem_append.mp h.others
  rw [FloatingList.entries, h.lines, List.filterMap_append, List.filterMap_eq_nil_iff.mpr hb,
    List.filterMap_cons, List.filterMap_eq_nil_iff.mpr ha]
  rfl

theorem toList_replaceOnly (h : l.IsSole before indent written rest e after) :
    (l.replaceOnly c).toList = ['\n'].intercalate (before.map (·.text.toList) ++
      (indent.toList ++ ((e.expr.upgraded c).toList ++ rest.toList)) ::
        after.map (·.text.toList)) := by
  have same {line : FloatingLine} (none : line.entry? = none) : line.moved c = line.text.toList := by
    cases line with
    | blank => rfl
    | entry => cases none
  obtain ⟨hb, ha⟩ := List.forall_mem_append.mp h.others
  rw [FloatingList.toList_replaceOnly, h.lines, List.map_append, List.map_cons,
    List.map_congr_left fun line hm => same (hb line hm),
    List.map_congr_left fun line hm => same (ha line hm)]
  rfl

-- A sole entry gives way to the one that is written for the channel.
theorem parse_replaceOnly (h : l.IsSole before indent written rest e after)
    (parsed : parse text = .ok l) (release : c.sdk.build = none) :
    ∃ l', parse (l.replaceOnly c) = .ok l' ∧
      l'.IsSole before indent (e.expr.upgraded c) rest ⟨e.expr.moved c, e.comment⟩ after := by
  obtain ⟨hb, ha⟩ := List.forall_mem_append.mp h.others
  let line := FloatingLine.entry indent (e.expr.upgraded c) rest ⟨e.expr.moved c, e.comment⟩
  have new : IsSole ⟨before ++ line :: after⟩ before indent (e.expr.upgraded c) rest
      ⟨e.expr.moved c, e.comment⟩ after := ⟨rfl, h.others⟩
  refine ⟨_, parse_of_lines ?_ (List.ne_nil_of_mem (new.entries ▸ List.mem_cons_self)), new⟩
  rw [splitAt_replaceOnly parsed, h.lines, List.map_append, List.map_cons]
  apply List.rel_append
  case _ =>
    rw [List.forall₂_map_left_iff, List.forall₂_same]
    exact fun x hx => read_moved_of_blank parsed (by simp [h.lines, hx]) (hb x hx)
  case _ =>
    refine .cons (read_moved_of_entry parsed (by simp [h.lines]) release) ?_
    rw [List.forall₂_map_left_iff, List.forall₂_same]
    exact fun x hx => read_moved_of_blank parsed (by simp [h.lines, hx]) (ha x hx)

end IsSole

theorem replaceOnly_moves (h : parse text = .ok l) (sole : l.isMultiLine = false)
    (release : c.sdk.build = none) : ∃ l', parse (l.replaceOnly c) = .ok l' ∧ Moved c l l' := by
  obtain ⟨before, indent, written, rest, e, after, old⟩ :=
    exists_isSole (length_entries_of_not_isMultiLine h sole)
  obtain ⟨l', parsed, new⟩ := old.parse_replaceOnly h release
  exact ⟨l', parsed, .replaced old.lines old.entries new.lines new.entries (e.expr.inStyle_moved c)⟩

-- The lines of a list, at the end of the text in front of its last blanks.
structure EndsAt (text : List Char) (lines : List FloatingLine) (pieces : List (List Char))
    (last blank : List Char) (behind : List (List Char)) (front : List FloatingLine)
    (line : FloatingLine) (back : List FloatingLine) : Prop where
  body : Text.splitAt '\n' (Text.trimEnd text) = pieces ++ [last]
  blanks : Text.splitAt '\n' (Text.trailing text) = blank :: behind
  lines : lines = front ++ line :: back
  front : List.Forall₂ (fun piece line => FloatingLine.read piece = .ok line) pieces front
  line : FloatingLine.read (last ++ blank) = .ok line
  back : List.Forall₂ (fun piece line => FloatingLine.read piece = .ok line) behind back

theorem exists_endsAt (h : parse text = .ok l) : ∃ pieces last blank behind front line back,
    EndsAt text.toList l.lines pieces last blank behind front line back := by
  have read := lines_of_parse h
  obtain ⟨pieces, last, hb, _⟩ :=
    Text.splitAt_append_right (Text.trimEnd text.toList) (List.not_mem_nil (a := '\n'))
  obtain ⟨blank, behind, ht⟩ : ∃ blank behind,
      Text.splitAt '\n' (Text.trailing text.toList) = blank :: behind :=
    List.exists_cons_of_ne_nil (Text.splitOn_ne_nil _ _)
  rw [← Text.trimEnd_append_trailing text.toList, Text.splitAt_append_splitAt hb ht] at read
  obtain ⟨front, rest, lines, hf, hr⟩ := exists_of_forall₂_append read
  cases hr with
  | cons hl hback => exact ⟨_, _, _, _, _, _, _, hb, ht, lines, hf, hl, hback⟩

namespace EndsAt

variable {pieces behind : List (List Char)} {last blank : List Char} {front back : List FloatingLine}
variable {line : FloatingLine} {cs : List Char}

theorem isBlank_of_mem (h : EndsAt cs lines pieces last blank behind front line back)
    {piece : List Char} (hp : piece ∈ blank :: behind) : ∀ d ∈ piece, Text.isBlank d :=
  fun d hd => Text.isBlank_of_mem_trailing (Text.mem_of_mem_splitOn (h.blanks ▸ hp) d hd)

theorem isBlank_last (h : EndsAt cs lines pieces last blank behind front line back) :
    ∀ d ∈ last.getLast?, Text.isBlank d = false := by
  intro d hd
  have whole := Text.intercalate_splitAt '\n' (Text.trimEnd cs)
  rw [h.body, Text.intercalate_append_cons] at whole
  have printed : (Text.trimEnd cs).getLast? = some d := by
    rw [← whole, List.getLast?_append]
    simp only [List.flatMap_nil, List.append_nil]
    rw [hd]
    rfl
  exact Text.isBlank_getLast?_trimEnd printed

-- The lines behind the last one that is printed have no expressions.
theorem eq_blank_of_mem (h : EndsAt cs lines pieces last blank behind front line back)
    {l : FloatingLine} (hm : l ∈ back) : ∃ text, l = .blank text := by
  have ⟨piece, hp, hr⟩ := exists_of_forall₂_right h.back hm
  have blanks := h.isBlank_of_mem (List.mem_cons_of_mem _ hp)
  have bare : FloatingLine.IsBare piece := fun d hd => blanks d ((List.takeWhile_prefix _).mem hd)
  exact ⟨_, Except.ok.inj (hr.symm.trans bare.read_eq)⟩

theorem filterMap_back (h : EndsAt cs lines pieces last blank behind front line back) {α : Type}
    {f : FloatingLine → Option α} (hf : ∀ text, f (.blank text) = none) : back.filterMap f = [] := by
  rw [List.filterMap_eq_nil_iff]
  intro l hl
  obtain ⟨text, rfl⟩ := h.eq_blank_of_mem hl
  exact hf text

theorem filterMap_lines (h : EndsAt cs lines pieces last blank behind front line back) {α : Type}
    {f : FloatingLine → Option α} (hf : ∀ text, f (.blank text) = none) :
    lines.filterMap f = front.filterMap f ++ (f line).toList := by
  rw [h.lines, List.filterMap_append, List.filterMap_cons, h.filterMap_back hf]
  cases f line <;> rfl

theorem filterMap_appended (h : EndsAt cs lines pieces last blank behind front line back) {α : Type}
    {f : FloatingLine → Option α} (hf : ∀ text, f (.blank text) = none) (line' new : FloatingLine)
    {a : α} (hn : f new = some a) : (front ++ line' :: new :: back).filterMap f
      = front.filterMap f ++ (f line').toList ++ [a] := by
  rw [List.filterMap_append, List.filterMap_cons, List.filterMap_cons_some hn, h.filterMap_back hf,
    List.append_assoc]
  cases f line' <;> rfl

-- A further line stands behind the last one that is printed, and in front of the last blanks.
theorem splitAt_appended (h : EndsAt cs lines pieces last blank behind front line back)
    {added : List Char} (inside : '\n' ∉ added) (newline : Newline) :
    ∃ mark, (∀ d ∈ mark, Text.isBlank d) ∧
      Text.splitAt '\n' (Text.trimEnd cs ++ (newline.text.toList ++ (added ++ Text.trailing cs)))
        = pieces ++ (last ++ mark) :: (added ++ blank) :: behind := by
  obtain ⟨mark, text, hm, hb⟩ : ∃ mark, newline.text.toList = mark ++ ['\n'] ∧ '\n' ∉ mark ∧
      ∀ d ∈ mark, Text.isBlank d := by
    cases newline
    case lf => exact ⟨[], rfl, by decide, List.forall_mem_nil _⟩
    case crlf => exact ⟨['\r'], rfl, by decide, List.forall_mem_singleton.mpr rfl⟩
  refine ⟨mark, hb, Text.splitAt_append_splitAt h.body ?_⟩
  rw [text, List.append_assoc, List.singleton_append, Text.splitAt_append_separator hm,
    Text.splitAt_append_of_not_mem inside h.blanks]

end EndsAt

theorem getLast?_indents (h : parse text = .ok l) : ∃ indent, l.indents.getLast? = some indent ∧
    (∀ d ∈ indent.toList, Text.isBlank d) ∧ '\n' ∉ indent.toList := by
  have same : (fun line => (FloatingLine.indent? line).isSome)
      = fun line => (FloatingLine.entry? line).isSome := by
    funext line
    cases line <;> rfl
  have ne : l.indents ≠ [] := by
    have entries := List.length_pos_iff.mpr (entries_ne_nil h)
    rw [FloatingList.entries, List.length_filterMap_eq_countP, ← same,
      ← List.length_filterMap_eq_countP] at entries
    exact List.length_pos_iff.mp entries
  obtain ⟨indent, last⟩ := Option.ne_none_iff_exists'.mp (mt List.getLast?_eq_none_iff.mp ne)
  obtain ⟨line, hl, hi⟩ := List.mem_filterMap.mp (List.mem_of_getLast? last)
  cases line with
  | blank => cases hi
  | entry indent written rest e =>
    cases hi
    obtain ⟨isEntry, _⟩ := FloatingLine.isEntry_of_read (read_text_of_mem h hl)
    have inside := Text.not_mem_of_mem_splitAt (map_text_lines h ▸ List.mem_map_of_mem hl)
    rw [isEntry.whole, List.mem_append, not_or] at inside
    exact ⟨_, last, isEntry.indent, inside.left⟩

-- Where the further line stands, and what it is made of.
theorem exists_appended (h : parse text = .ok l) (several : l.isMultiLine)
    (below : l.isAtLeast c = false) (hu : l.upgraded c newline = .ok new) :
    ∃ template pieces last blank behind front line back indent mark, l.highest? = .ok (some template) ∧
      EndsAt text.toList l.lines pieces last blank behind front line back ∧
        l.indents.getLast? = some indent ∧ (∀ d ∈ indent.toList, Text.isBlank d) ∧
          (∀ d ∈ blank, Text.isBlank d) ∧ (∀ d ∈ mark, Text.isBlank d) ∧
            Text.splitAt '\n' new.toList = pieces ++ (last ++ mark) ::
              (indent.toList ++ ((template.expr.upgraded c).toList ++ blank)) :: behind := by
  have ranks := ranks_of_upgraded h below hu
  obtain ⟨template, _, highest, hu', whole⟩ := upgraded_of_isMultiLine newline h several below ranks
  cases hu.symm.trans hu'
  obtain ⟨pieces, last, blank, behind, front, line, back, ends⟩ := exists_endsAt h
  obtain ⟨indent, lastIndent, lead, inside⟩ := getLast?_indents h
  have inside' : '\n' ∉ indent.toList ++ (template.expr.upgraded c).toList := by
    simp [inside, FloatingExpr.newline_not_mem_upgraded]
  obtain ⟨mark, hm, cut⟩ := ends.splitAt_appended inside' newline
  have indents : l.lines.filterMap FloatingLine.indent? = l.indents := rfl
  rw [List.append_assoc, List.append_assoc indent.toList] at cut
  refine ⟨template, pieces, last, blank, behind, front, line, back, indent, mark, highest, ends,
    lastIndent, lead, ends.isBlank_of_mem List.mem_cons_self, hm, ?_⟩
  rw [whole, indents, lastIndent, Option.getD_some, cut]

-- A list of several entries gains a line.
theorem appendLine_moves (h : parse text = .ok l) (several : l.isMultiLine)
    (below : l.isAtLeast c = false) (release : c.sdk.build = none)
    (hu : l.upgraded c newline = .ok new) : ∃ l', parse new = .ok l' ∧ Moved c l l' := by
  obtain ⟨template, pieces, last, blank, behind, front, line, back, indent, mark, highest, ends,
    lastIndent, lead, blanks, hm, cut⟩ := exists_appended h several below hu
  obtain ⟨line', read', indent', entry'⟩ :=
    FloatingLine.exists_read_exchange ends.line ends.isBlank_last blanks hm
  have added := FloatingLine.read_upgraded lead (FloatingLine.isTail_of_isBlank blanks) release
    template.expr
  let gained := FloatingLine.entry indent (template.expr.upgraded c) (String.ofList blank)
    ⟨template.expr.moved c, none⟩
  have read : List.Forall₂ (fun line l => FloatingLine.read line = .ok l)
      (Text.splitAt '\n' new.toList) (front ++ line' :: gained :: back) := by
    rw [String.ofList_toList] at added
    rw [cut]
    exact List.rel_append ends.front (.cons read' (.cons added ends.back))
  have old : l.entries = front.filterMap FloatingLine.entry? ++ line.entry?.toList :=
    ends.filterMap_lines fun _ => rfl
  have entries' := ends.filterMap_appended (f := FloatingLine.entry?) (fun _ => rfl) line' gained rfl
  -- the last line that is printed may be a comment, with the last entry above it
  obtain ⟨first, bottom, bottom', hb, hb', same⟩ : ∃ first bottom bottom',
      l.entries = first ++ [bottom] ∧
        front.filterMap FloatingLine.entry? ++ line'.entry?.toList = first ++ [bottom'] ∧
          bottom.SameButEnd bottom' := by
    generalize line.entry? = e, line'.entry? = e' at entry' old
    cases entry' with
    | none =>
      obtain none | ⟨first, bottom, heq⟩ := List.eq_nil_or_concat l.entries
      · exact absurd none (entries_ne_nil h)
      · rw [List.concat_eq_append] at heq
        exact ⟨first, bottom, bottom, heq, old ▸ heq, rfl, rfl⟩
    | some same => exact ⟨_, _, _, old, rfl, same⟩
  have ne : first ≠ [] := by
    rintro rfl
    have several : 1 < l.entries.length := of_decide_eq_true several
    simp [hb] at several
  have indents' := ends.filterMap_appended (f := FloatingLine.indent?) (fun _ => rfl) line' gained rfl
  rw [indent', ← ends.filterMap_lines fun _ => rfl] at indents'
  have parsed := parse_of_lines read (by simp [entries'])
  rw [hb', List.append_assoc] at entries'
  exact ⟨_, parsed, .gained hb ne entries' same rfl (isHighest_of_highest? highest)
    (template.expr.inStyle_moved c) lastIndent indents'⟩

theorem exists_moved (h : parse text = .ok l) (below : l.isAtLeast c = false)
    (release : c.sdk.build = none) (hu : l.upgraded c newline = .ok new) :
    ∃ l', parse new = .ok l' ∧ Moved c l l' := by
  cases several : l.isMultiLine with
  | true => exact appendLine_moves h several below release hu
  | false =>
    cases (upgraded_of_sole below several).symm.trans hu
    exact replaceOnly_moves h several release

-- A list below a channel, moved to the channel, is a list that reaches it. All lists can be moved but
-- those of several entries that cannot be ranked.
theorem upgraded_moves (h : parse text = .ok l) (ranks : l.Ranks) (below : l.isAtLeast c = false)
    (release : c.sdk.build = none) (newline : Newline) :
    ∃ new l', l.upgraded c newline = .ok new ∧ parse new = .ok l' ∧
      l'.isAtLeast c ∧ Moved c l l' ∧ l.text = text ∧ l'.text = new := by
  obtain ⟨new, hu⟩ := exists_upgraded c newline h ranks
  obtain ⟨l', parsed, moved⟩ := exists_moved h below release hu
  exact ⟨new, l', hu, parsed, moved.isAtLeast, moved, parse_text h, parse_text parsed⟩

theorem upgraded_moves_wildcard :
    let text := "6.0.1xx # old\r\n  7.x\t# newer \r\n# end\n \n"
    ∃ l c, parse text = .ok l ∧ Channel.ofTexts "8.0" (some "8.0.204-rc.1") none none = .ok c ∧
      l.Ranks ∧ l.isAtLeast c = false ∧ c.sdk.build = none ∧
      ∃ new l', l.upgraded c .crlf = .ok new ∧ parse new = .ok l' ∧
        l'.isAtLeast c ∧ Moved c l l' ∧ l.text = text ∧ l'.text = new := by
  intro text
  have h : parse text = .ok ⟨[
      .entry "" "6.0.1xx" " # old\r" ⟨.band 6 0 1 .lower, some " # old"⟩,
      .entry "  " "7.x" "\t# newer \r" ⟨.anyMinor 7 .lowerX, some "\t# newer "⟩,
      .blank "# end", .blank " ", .blank ""]⟩ := by
    decide +kernel
  have channel : Channel.ofTexts "8.0" (some "8.0.204-rc.1") none none
      = .ok ⟨⟨8, 0, 204, [.alpha "rc" (by decide), .numeric 1], none⟩, .lts, .active⟩ := by
    decide +kernel
  exact ⟨_, _, h, channel, by decide +kernel, by decide +kernel, rfl,
    upgraded_moves h (by decide +kernel) (by decide +kernel) rfl .crlf⟩

end FloatingList
end Repin
