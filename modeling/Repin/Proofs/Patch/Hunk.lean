import Repin.Patch.Diff
import Repin.Proofs.Except
import Repin.Proofs.Text.Lines
/-!
# Edits in hunks

Every hunk holds whole lines and its edits lie in them. Between two hunks stands a line feed at least,
since edits that touch a common line share a hunk. Main statement: `Hunk.exists_group`.
-/
namespace Repin.Hunk

variable {document : List Char} {e : EditSpan} {edits : List EditSpan} {last : Hunk}

-- A hunk from the start of a line to the end of one, with its edits in between.
structure Holds (document : List Char) (h : Hunk) : Prop where
  opens : Text.IsLineStart document h.start
  closes : Text.IsLineEnd document h.stop
  inside : ∀ e ∈ h.edits, h.start ≤ e.span.start ∧ e.span.stop ≤ h.stop
  nonempty : h.edits ≠ []

theorem Holds.start_le_stop {h : Hunk} (hh : h.Holds document) : h.start ≤ h.stop := by
  have ⟨e, rest, he⟩ := List.exists_cons_of_ne_nil hh.nonempty
  have ⟨first, last⟩ := hh.inside e (he ▸ List.mem_cons_self)
  have := e.span.start_le_stop
  omega

theorem Holds.exists_cut {before cs : List Char} {h : Hunk} (hh : h.Holds (before ++ cs))
    (le : Text.byteLength before ≤ h.start) : ∃ kept old back, cs = kept ++ (old ++ back) ∧
      h.start = Text.byteLength (before ++ kept) ∧ h.stop = h.start + Text.byteLength old ∧
      Text.EndsLine (before ++ kept) ∧ Text.StartsEnd back := by
  obtain ⟨above, rest, whole, start, ends⟩ := hh.opens
  obtain ⟨front, back, whole', stop, starts⟩ := hh.closes
  have order := hh.start_le_stop
  obtain ⟨kept, rfl, rfl⟩ := Text.exists_append_of_byteLength_le whole (by omega)
  obtain ⟨old, rfl, rfl⟩ := Text.exists_append_of_byteLength_le (whole.symm.trans whole') (by omega)
  rw [Text.byteLength_append _ old] at stop
  exact ⟨kept, old, back, rfl, start.symm, by omega, ends, starts⟩

-- The order of the edits of a hunk is no part of what it holds.
theorem Holds.of_perm {h : Hunk} (hh : h.Holds document) (perm : edits.Perm h.edits) :
    Holds document { h with edits } where
  opens := hh.opens
  closes := hh.closes
  inside := fun e he => hh.inside e (perm.mem_iff.mp he)
  nonempty := mt (fun none => List.perm_nil.mp (none ▸ perm.symm)) hh.nonempty

theorem exists_bounds (first : Text.IsBoundary document e.span.start)
    (last : Text.IsBoundary document e.span.stop) :
    ∃ start stop, bounds document e = .ok (start, stop) ∧ start ≤ e.span.start ∧
      Holds document ⟨start, stop, [e]⟩ := by
  obtain ⟨start, hs, before, opens⟩ := Text.exists_lineStart? first
  obtain ⟨stop, hl, behind, closes⟩ := Text.exists_lineEnd? last
  exact ⟨start, stop, by rw [bounds, hs, hl], before, opens, closes,
    List.forall_mem_singleton.mpr ⟨before, behind⟩, by simp⟩

-- An edit whose lines meet those of a hunk joins it.
theorem Holds.join {stop : Nat} (h : last.Holds document) (after : last.start ≤ e.span.start)
    (closes : Text.IsLineEnd document stop) (behind : e.span.stop ≤ stop) :
    Holds document ⟨last.start, max last.stop stop, e :: last.edits⟩ where
  opens := h.opens
  closes := by
    rcases Nat.le_total last.stop stop with le | le
    case inl => rwa [Nat.max_eq_right le]
    case inr =>
      rw [Nat.max_eq_left le]
      exact h.closes
  inside := by
    refine List.forall_mem_cons.mpr ⟨⟨after, Nat.le_trans behind (Nat.le_max_right ..)⟩, fun f hf => ?_⟩
    have ⟨first, stop⟩ := h.inside f hf
    exact ⟨first, Nat.le_trans stop (Nat.le_max_left ..)⟩
  nonempty := by simp

theorem exists_groupFrom (hl : last.Holds document)
    (hb : ∀ e ∈ edits, Text.IsBoundary document e.span.start ∧ Text.IsBoundary document e.span.stop)
    (order : edits.Pairwise fun e f => e.span.stop ≤ f.span.start)
    (after : ∀ e ∈ edits, last.start ≤ e.span.start) :
    ∃ first rest, groupFrom document last edits = .ok (first :: rest) ∧ first.start = last.start ∧
      (∀ h ∈ first :: rest, h.Holds document) ∧
      (first :: rest).flatMap (·.edits) = last.edits.reverse ++ edits ∧
      (first :: rest).Pairwise fun h k => h.stop < k.start := by
  induction edits generalizing last with
  | nil =>
    refine ⟨{ last with edits := last.edits.reverse }, [], rfl, rfl, ?_, by simp, by simp⟩
    exact List.forall_mem_singleton.mpr (hl.of_perm (List.reverse_perm _))
  | cons e edits ih =>
    have ⟨⟨first, last'⟩, hb⟩ := List.forall_mem_cons.mp hb
    have ⟨behind, order⟩ := List.pairwise_cons.mp order
    have ⟨after, later⟩ := List.forall_mem_cons.mp after
    obtain ⟨start, stop, bounds, before, single⟩ := exists_bounds first last'
    rw [groupFrom, bounds, ok_bind]
    dsimp only
    split
    case isTrue =>
      have ⟨_, inside⟩ := single.inside e List.mem_cons_self
      obtain ⟨h, hs, grouped, same, holds, all, apart⟩ := ih (hl.join after single.closes inside) hb
        order later
      exact ⟨h, hs, grouped, same, holds, by simp [all], apart⟩
    case isFalse apart =>
      have stop' := e.span.start_le_stop
      obtain ⟨h, hs, grouped, same, holds, all, rest⟩ := ih single hb order
        fun f hf => Nat.le_trans (Nat.le_trans before stop') (behind f hf)
      refine ⟨{ last with edits := last.edits.reverse }, h :: hs, ?_, rfl, ?_, ?_, ?_⟩
      · rw [grouped]
        rfl
      · exact List.forall_mem_cons.mpr ⟨hl.of_perm (List.reverse_perm _), holds⟩
      · rw [List.flatMap_cons, all]
        rfl
      · refine List.pairwise_cons.mpr ⟨fun k hk => ?_, rest⟩
        have first : last.stop < h.start := by
          rw [same]
          exact Nat.not_le.mp apart
        rcases List.mem_cons.mp hk with rfl | hk
        case inl => exact first
        case inr =>
          have length := (holds h List.mem_cons_self).start_le_stop
          have := (List.pairwise_cons.mp rest).left k hk
          dsimp only
          omega

theorem exists_group
    (hb : ∀ e ∈ edits, Text.IsBoundary document e.span.start ∧ Text.IsBoundary document e.span.stop)
    (order : edits.Pairwise fun e f => e.span.stop ≤ f.span.start) :
    ∃ hunks, group document edits = .ok hunks ∧ (∀ h ∈ hunks, h.Holds document) ∧
      hunks.flatMap (·.edits) = edits ∧ hunks.Pairwise fun h k => h.stop < k.start := by
  cases edits with
  | nil => exact ⟨[], rfl, by simp, rfl, .nil⟩
  | cons e edits =>
    have ⟨⟨first, last⟩, hb⟩ := List.forall_mem_cons.mp hb
    have ⟨behind, order⟩ := List.pairwise_cons.mp order
    have length := e.span.start_le_stop
    obtain ⟨start, stop, bounds, before, single⟩ := exists_bounds first last
    obtain ⟨h, hs, grouped, _, holds, all, apart⟩ := exists_groupFrom single hb order
      fun f hf => Nat.le_trans (Nat.le_trans before length) (behind f hf)
    exact ⟨h :: hs, by rwa [group, bounds, ok_bind], holds, all, apart⟩

end Repin.Hunk
