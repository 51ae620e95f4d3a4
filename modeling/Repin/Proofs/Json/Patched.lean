import Repin.Proofs.Json.Language
import Repin.Proofs.Patch.Sequence
/-!
# Patched documents

Patching commutes with parsing: a document whose values are edited is read as the document with the
values changed.
-/
namespace Repin.Json

open Grammar

variable {text : String} {root : Json} {change : Site → Option Change} {edits : List EditSpan}

-- Changes of the values of sites, with texts that need no escapes, are made by a patch of their edits,
-- given in any order. The patched text is a document again. It shows the same sites in the same order,
-- under the same segments; each value, and each field that shows it, has its change and no other. What
-- the changes in front add in length shifts the spans.
theorem parse_patched (h : parse text = .ok root)
    (lies : ∀ s ∈ sites root, ∀ c, change s = some c → c.LiesIn s ∧ ∀ d ∈ c.text.toList, IsPlain d)
    (perm : edits.Perm (Change.editsOf change (sites root))) :
    ∃ p out root', PatchSet.ofUnordered edits = .ok p ∧ p.apply text = .ok out ∧
      parse out = .ok root' ∧
      (visits root).map Visit.site = sites root ∧ (visits root').map Visit.site = sites root' ∧
      (∀ v ∈ visits root, ShowIn (sites root) v.steps) ∧
      List.Forall₂ (Visit.Moved change) (visits root) (visits root') ∧
      (sites root').map (·.span.bounds)
        = Span.grown 0 ((sites root).map fun s => (s.span, Change.growth (change s))) := by
  have shows (s) (hs : s ∈ sites root) : s.Shows text.toList := (shows_of_parse h s hs).left
  have inside (s) (hs : s ∈ sites root) (c) (hc : change s = some c) : c.LiesIn s :=
    (lies s hs c hc).left
  have separated := Change.separated_editsOf inside shows (separated_of_parse h)
  have ⟨p, hp, same⟩ := PatchSet.exists_ofUnordered_of_perm perm separated
  have ⟨out, splice⟩ := Change.exists_splice inside shows (separated_of_parse h)
  rw [← String.toList_ofList (l := out)] at splice
  have ⟨root', parsed, moved, shifted⟩ := exists_visits_of_splice h lies splice
  have applied := PatchSet.apply_eq_ok_iff.mpr (same ▸ splice)
  exact ⟨p, _, root', hp, applied, parsed, map_site_visits root, map_site_visits root',
    showIn_visits root, moved, shifted⟩

-- The first value of an object is replaced, and the last letter of the second one taken away.
theorem parse_patched_object :
    let edits : List EditSpan := [⟨.ofLength 15 1, ""⟩, ⟨.ofLength 6 1, "xyz"⟩]
    ∃ p out root', PatchSet.ofUnordered edits = .ok p ∧
      p.apply "\x7b\"a\":\"x\",\"b\":\"yz\"\x7d" = .ok out ∧ parse out = .ok root' ∧
      (sites root').map (·.span.bounds) = [(6, 9), (16, 17)] := by
  intro edits
  let root : Json := .object [(⟨"a", .ofLength 2 1, false⟩, .string ⟨"x", .ofLength 6 1, false⟩),
    (⟨"b", .ofLength 10 1, false⟩, .string ⟨"yz", .ofLength 14 2, false⟩)]
  let change (s : Site) : Option Change :=
    if s.span.start = 6 then some ⟨0, ['x'], "xyz"⟩ else some ⟨1, ['z'], ""⟩
  have plain : ∀ c ∈ ['a', 'b', 'x', 'y', 'z'], IsPlain c := by simp [IsPlain]
  have quoted (content : List Char) (h : content ⊆ ['a', 'b', 'x', 'y', 'z']) :
      Quoted content content := quoted_of_plain fun c hc => plain c (h hc)
  have key : Key 18 "\"a\":\"x\",\"b\":\"yz\"\x7d".toList ⟨"a", .ofLength 2 1, false⟩
      "\"x\",\"b\":\"yz\"\x7d".toList :=
    .colon .done (.quotes (quoted ['a'] (by decide))) .done
  have others : Members 18 "\"b\":\"yz\"\x7d".toList
      [(⟨"b", .ofLength 10 1, false⟩, .string ⟨"yz", .ofLength 14 2, false⟩)] ['\x7d'] :=
    .one (.colon .done (.quotes (quoted ['b'] (by decide))) .done) .done
      (.string (.quotes (quoted ['y', 'z'] (by decide)))) .done
  have members :=
    Members.more key .done (.string (.quotes (quoted ['x'] (by decide)))) .done others
  have document : Document "\x7b\"a\":\"x\",\"b\":\"yz\"\x7d".toList root :=
    .value .done (.object members .here) .done
  have lies : ∀ s ∈ sites root, ∀ c, change s = some c →
      c.LiesIn s ∧ ∀ d ∈ c.text.toList, IsPlain d := by
    intro s hs c hc
    have hs : s ∈ [StringLiteral.site _ ⟨"x", .ofLength 6 1, false⟩,
      StringLiteral.site _ ⟨"yz", .ofLength 14 2, false⟩] := hs
    obtain rfl | hs := List.mem_cons.mp hs
    · cases hc
      exact ⟨⟨rfl, rfl⟩, fun d hd => plain d (by revert d; simp)⟩
    · obtain rfl := List.mem_singleton.mp hs
      cases hc
      exact ⟨⟨rfl, rfl⟩, by simp⟩
  have perm : edits.Perm (Change.editsOf change (sites root)) := List.Perm.swap ..
  have ⟨p, out, root', hp, ho, hr, _, _, _, _, spans⟩ :=
    parse_patched (parse_eq_ok_iff.mpr document) lies perm
  exact ⟨p, out, root', hp, ho, hr, spans⟩

end Repin.Json
