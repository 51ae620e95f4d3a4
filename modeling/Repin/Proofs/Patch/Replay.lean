import Repin.Proofs.Patch.Splice
/-!
# Replaying recorded edits

A recorded edit also has the text that it replaced. Main statement: `Replay.of_splice`, by which the
edits that a patch leaves on record lead from the text it was applied to to the text it gave.
-/
namespace Repin

-- A text that starts at an offset of its document, and the text after recorded edits: under the span
-- of each is its old text, which its new text replaces, and outside of the spans all stays.
inductive Replay : Nat → List Char → List OutputEdit → List Char → Prop where
  | done {offset : Nat} {cs : List Char} : Replay offset cs [] cs
  | edit {offset : Nat} {kept rest out : List Char} {e : OutputEdit} {edits : List OutputEdit} :
    e.span.start = offset + Text.byteLength kept →
      e.span.stop = e.span.start + Text.byteLength e.oldText.toList →
        Replay e.span.stop rest edits out →
          Replay offset (kept ++ (e.oldText.toList ++ rest)) (e :: edits)
            (kept ++ (e.newText.toList ++ out))

namespace Replay

variable {document before cs out : List Char} {edits : List EditSpan} {records : List OutputEdit}

-- The old text of a recorded edit stands under its span.
theorem slice_eq (h : Replay (Text.byteLength before) cs records out) :
    ∀ e ∈ records, Text.slice e.span.start e.span.stop (before ++ cs) = some e.oldText.toList := by
  generalize ho : Text.byteLength before = offset at h
  induction h generalizing before with
  | done => simp
  | @edit offset kept rest out e records hs hl tail ih =>
    have place : Text.byteLength (before ++ kept ++ e.oldText.toList) = e.span.stop := by
      simp only [Text.byteLength_append]
      omega
    intro f hf
    rcases List.mem_cons.mp hf with rfl | hf
    case inl =>
      apply Text.slice_eq_some_iff.mpr
      refine ⟨before ++ kept, rest, by simp, ?_, by omega⟩
      rw [Text.byteLength_append, ho, hs]
    case inr => simpa using ih place f hf

-- Recorded edits lead to one text only.
theorem unique {offset : Nat} {out' : List Char} (h : Replay offset cs records out)
    (h' : Replay offset cs records out') : out = out' := by
  induction h generalizing out' with
  | done =>
    cases h'
    rfl
  | @edit offset kept rest out e records hs hl tail ih =>
    generalize ht : kept ++ (e.oldText.toList ++ rest) = text at h'
    cases h' with
    | @edit _ kept' rest' out' _ _ hs' _ tail' =>
      have ⟨front, behind⟩ := Text.append_inj_of_byteLength ht (by omega)
      have back := List.append_cancel_left behind
      subst front back
      rw [ih tail']

theorem of_record {record : EditSpan → OutputEdit}
    (hr : ∀ e, (record e).span = e.span ∧ (record e).newText = e.text ∧ (record e).oldText
      = String.ofList ((Text.slice e.span.start e.span.stop document).getD []))
    (h : Splice (Text.byteLength before) cs edits out) (hd : document = before ++ cs) :
    Replay (Text.byteLength before) cs (edits.map record) out := by
  generalize ho : Text.byteLength before = offset at h
  induction h generalizing before with
  | done => exact .done
  | @edit offset kept old rest out e edits hs hl tail ih =>
    have ⟨span, new, text⟩ := hr e
    have under : Text.slice e.span.start e.span.stop document = some old :=
      Text.slice_eq_some_iff.mpr
        ⟨before ++ kept, rest, by simp [hd], by rw [Text.byteLength_append, ho, hs], by omega⟩
    have text : (record e).oldText.toList = old := by
      rw [text, under, Option.getD_some, String.toList_ofList]
    have place : Text.byteLength (before ++ kept ++ old) = e.span.stop := by
      simp only [Text.byteLength_append]
      omega
    have tail := ih (by simp [hd]) place
    rw [List.map_cons, ← text, ← new]
    refine .edit (by rw [span, hs]) (by rw [span, text, hl]) ?_
    rwa [span]

theorem of_splice {p : PatchSet} {text : String} (file : String)
    (h : Splice 0 text.toList p.edits out) : Replay 0 text.toList (p.materialize file text) out := by
  have whole : Splice (Text.byteLength []) text.toList p.edits out := h
  unfold PatchSet.materialize
  exact of_record (fun _ => ⟨rfl, rfl, rfl⟩) whole rfl

end Replay
end Repin
