import Repin.Patch.Basic
import Repin.Proofs.Except
import Repin.Proofs.Span
import Repin.Proofs.Text.Bytes
/-!
# Splices

A splice relates a text and edits in order to the text with the edits made. Cutting a splice at any
offset that no edit crosses gives two splices. Main statement: `applyFrom_eq_ok_iff`, by which
applying a patch is splicing.
-/
namespace Repin

-- A text that starts at an offset of its document, and the text with the edits made.
inductive Splice : Nat → List Char → List EditSpan → List Char → Prop where
  | done {offset : Nat} {cs : List Char} : Splice offset cs [] cs
  | edit {offset : Nat} {kept old rest out : List Char} {e : EditSpan} {edits : List EditSpan} :
    e.span.start = offset + Text.byteLength kept → e.span.stop = e.span.start + Text.byteLength old →
      Splice e.span.stop rest edits out →
        Splice offset (kept ++ (old ++ rest)) (e :: edits) (kept ++ (e.text.toList ++ out))

namespace Splice

variable {offset : Nat} {cs as bs out out' : List Char} {e : EditSpan} {es fs : List EditSpan}

-- What lies in front of all edits stays.
theorem kept_append (h : Splice offset (as ++ bs) fs out)
    (hf : ∀ e ∈ fs, offset + Text.byteLength as ≤ e.span.start) :
    ∃ out', out = as ++ out' ∧ Splice (offset + Text.byteLength as) bs fs out' := by
  generalize ht : as ++ bs = text at h
  cases h with
  | done => exact ⟨bs, ht.symm, .done⟩
  | @edit _ kept old rest out e edits hs hl tail =>
    have front := hf e List.mem_cons_self
    have ⟨between, hk, hb⟩ := Text.exists_append_of_byteLength_le ht (by omega)
    subst hk hb
    simp only [Text.byteLength_append] at hs
    exact ⟨_, List.append_assoc .., .edit (by omega) hl tail⟩

theorem split (h : Splice offset (as ++ bs) (es ++ fs) out)
    (he : ∀ e ∈ es, e.span.stop ≤ offset + Text.byteLength as)
    (hf : ∀ e ∈ fs, offset + Text.byteLength as ≤ e.span.start) :
    ∃ as' bs', out = as' ++ bs' ∧ Splice offset as es as' ∧
      Splice (offset + Text.byteLength as) bs fs bs' := by
  induction es generalizing offset as out with
  | nil =>
    have ⟨bs', heq, tail⟩ := kept_append h hf
    exact ⟨as, bs', heq, .done, tail⟩
  | cons e es ih =>
    generalize ht : as ++ bs = text at h
    cases h with
    | @edit _ kept old rest out _ _ hs hl tail =>
      have stop := he e List.mem_cons_self
      have ⟨as', ha, hr⟩ : ∃ as', as = (kept ++ old) ++ as' ∧ rest = as' ++ bs := by
        rw [← List.append_assoc] at ht
        apply Text.exists_append_of_byteLength_le ht.symm
        simp only [Text.byteLength_append]
        omega
      subst ha hr
      have length : e.span.stop + Text.byteLength as'
          = offset + Text.byteLength ((kept ++ old) ++ as') := by
        simp only [Text.byteLength_append]
        omega
      have ⟨front, bs', heq, hfront, hback⟩ := ih tail
        (fun f hm => length ▸ he f (List.mem_cons_of_mem _ hm)) (fun f hm => length ▸ hf f hm)
      subst heq
      exact ⟨kept ++ (e.text.toList ++ front), bs', by simp,
        by simpa using Splice.edit hs hl hfront, length ▸ hback⟩

-- A part between two others that no edit touches is spliced on its own, and so is what is behind them.
theorem split_between {front back : List Char}
    (h : Splice offset (front ++ (as ++ (back ++ bs))) (es ++ fs) out)
    (he : ∀ e ∈ es, offset + Text.byteLength front ≤ e.span.start ∧
      e.span.stop ≤ offset + Text.byteLength front + Text.byteLength as)
    (hf : ∀ e ∈ fs, offset + Text.byteLength front + Text.byteLength as + Text.byteLength back
      ≤ e.span.start) :
    ∃ as' bs', out = front ++ (as' ++ (back ++ bs')) ∧
      Splice (offset + Text.byteLength front) as es as' ∧
      Splice (offset + Text.byteLength front + Text.byteLength as + Text.byteLength back) bs fs bs' := by
  have later : ∀ e ∈ es ++ fs, offset + Text.byteLength front ≤ e.span.start := by
    intro e hm
    obtain hm | hm := List.mem_append.mp hm
    · exact (he e hm).left
    · exact Nat.le_trans (by omega) (hf e hm)
  have ⟨_, heq, middle⟩ := h.kept_append later
  have ⟨as', _, heq', inner, behind⟩ := middle.split (fun e hm => (he e hm).right) fun e hm =>
    Nat.le_trans (Nat.le_add_right ..) (hf e hm)
  have ⟨bs', heq'', outer⟩ := behind.kept_append hf
  exact ⟨as', bs', by rw [heq, heq', heq''], inner, outer⟩

-- Text in front of all edits keeps its place in the result.
theorem head?_eq (h : Splice offset cs es out) (he : ∀ e ∈ es, offset < e.span.start) :
    out.head? = cs.head? := by
  cases h with
  | done => rfl
  | @edit _ kept old rest out e edits hs hl tail =>
    have first := he e List.mem_cons_self
    cases kept with
    | nil => simp at hs; omega
    | cons => rfl

-- Text in front of a splice and behind it is kept.
theorem prepend (front : List Char) (h : Splice (offset + Text.byteLength front) cs es out) :
    Splice offset (front ++ cs) es (front ++ out) := by
  cases h with
  | done => exact .done
  | edit hs hl tail =>
    rw [← List.append_assoc front, ← List.append_assoc front]
    refine .edit ?_ hl tail
    rw [hs, Text.byteLength_append, Nat.add_assoc]

theorem append (h : Splice offset cs es out) (back : List Char) :
    Splice offset (cs ++ back) es (out ++ back) := by
  induction h with
  | done => exact .done
  | edit hs hl _ ih =>
    simp only [List.append_assoc]
    exact .edit hs hl ih

theorem eq_of_nil (h : Splice offset cs [] out) : out = cs := by
  cases h
  rfl

-- One edit takes the place of the part that lies under it.
theorem eq_of_singleton {front old back : List Char} (h : Splice offset (front ++ (old ++ back)) [e] out)
    (hs : e.span.start = offset + Text.byteLength front)
    (hl : e.span.stop = e.span.start + Text.byteLength old) :
    out = front ++ (e.text.toList ++ back) := by
  generalize ht : front ++ (old ++ back) = text at h
  cases h with
  | @edit _ kept old' rest out _ _ start stop tail =>
    cases tail
    have ⟨first, behind⟩ := Text.append_inj_of_byteLength ht (by omega)
    have ⟨_, last⟩ := Text.append_inj_of_byteLength behind (by omega)
    rw [first, last]

-- Edits in order, each of a part of the text, can be made.
theorem exists_of_slice (ho : es.Pairwise fun e f => e.span.stop ≤ f.span.start)
    (hs : ∀ e ∈ es, offset ≤ e.span.start ∧
      ∃ old, Text.slice (e.span.start - offset) (e.span.stop - offset) cs = some old) :
    ∃ out, Splice offset cs es out := by
  induction es generalizing offset cs with
  | nil => exact ⟨cs, .done⟩
  | cons e es ih =>
    have ⟨first, old, ho'⟩ := hs e List.mem_cons_self
    have ⟨kept, rest, hc, hk, hl⟩ := Text.slice_eq_some_iff.mp ho'
    have ⟨later, ordered⟩ := List.pairwise_cons.mp ho
    have order := e.span.start_le_stop
    subst hc
    have tail : ∀ f ∈ es, e.span.stop ≤ f.span.start ∧
        ∃ old, Text.slice (f.span.start - e.span.stop) (f.span.stop - e.span.stop) rest = some old := by
      intro f hf
      refine ⟨later f hf, ?_⟩
      have ⟨_, old', ho'⟩ := hs f (List.mem_cons_of_mem _ hf)
      have ⟨kept', rest', hc', hk', hl'⟩ := Text.slice_eq_some_iff.mp ho'
      have := later f hf
      have ⟨between, hb, hr⟩ : ∃ between, kept' = (kept ++ old) ++ between ∧
          rest = between ++ (old' ++ rest') := by
        apply Text.exists_append_of_byteLength_le
        case h => simpa using hc'
        case hl =>
          simp only [Text.byteLength_append]
          omega
      subst hb hr
      simp only [Text.byteLength_append] at hk'
      exact ⟨old', Text.slice_eq_some_iff.mpr ⟨between, rest', rfl, by omega, by omega⟩⟩
    have ⟨out, ho⟩ := ih ordered tail
    exact ⟨_, .edit (by omega) (by omega) ho⟩

end Splice

namespace PatchSet

variable {document before cs out : List Char} {edits : List EditSpan} {start stop : Nat}

theorem copy_eq_ok_iff {middle : List Char} :
    copy document start stop = .ok middle ↔ Text.slice start stop document = some middle := by
  unfold copy
  cases Text.slice start stop document <;> simp

theorem applyFrom_cons_eq_ok_iff {length cursor : Nat} {e : EditSpan} :
    applyFrom document length cursor (e :: edits) = .ok out ↔ e.span.stop ≤ length ∧
      ∃ kept tail, Text.slice cursor e.span.start document = some kept ∧
        applyFrom document length e.span.stop edits = .ok tail ∧
          kept ++ (e.text.toList ++ tail) = out := by
  rw [applyFrom]
  by_cases le : e.span.stop ≤ length
  case neg => simp [le, bind, Except.bind, throw, throwThe, MonadExceptOf.throw]
  case pos =>
    simp only [le, if_true, bind_eq_ok, copy_eq_ok_iff, pure, Except.pure, Except.ok.injEq,
      List.append_assoc, true_and, exists_and_left]

-- Applying edits starts with a copy, so the cursor lies between two characters.
theorem exists_append_of_applyFrom {length cursor : Nat}
    (h : applyFrom document length cursor edits = .ok out) :
    ∃ before cs, document = before ++ cs ∧ Text.byteLength before = cursor := by
  have ⟨stop, middle, hc⟩ : ∃ stop middle, copy document cursor stop = .ok middle := by
    cases edits with
    | nil => exact ⟨length, out, h⟩
    | cons e edits =>
      have ⟨_, kept, _, hk, _⟩ := applyFrom_cons_eq_ok_iff.mp h
      exact ⟨_, kept, copy_eq_ok_iff.mpr hk⟩
  have ⟨before, after, heq, hb, _⟩ := Text.slice_eq_some_iff.mp (copy_eq_ok_iff.mp hc)
  exact ⟨before, middle ++ after, heq, hb⟩

theorem applyFrom_eq_ok_iff :
    applyFrom (before ++ cs) (Text.byteLength (before ++ cs)) (Text.byteLength before) edits = .ok out
      ↔ Splice (Text.byteLength before) cs edits out := by
  induction edits generalizing before cs out with
  | nil =>
    rw [applyFrom, copy_eq_ok_iff, Text.slice_eq_some_iff]
    constructor
    case mp =>
      rintro ⟨b, a, heq, hb, hl⟩
      have ⟨hb, hc⟩ := Text.append_inj_of_byteLength heq hb.symm
      subst hb hc
      simp only [Text.byteLength_append] at hl
      have none : a = [] := Text.byteLength_eq_zero_iff.mp (by omega)
      subst none
      simpa using Splice.done
    case mpr =>
      intro h
      cases h
      exact ⟨before, [], by simp, rfl, by simp [Nat.add_comm]⟩
  | cons e edits ih =>
    rw [applyFrom_cons_eq_ok_iff]
    constructor
    case mp =>
      rintro ⟨_, kept, tail, hk, ht, rfl⟩
      have ⟨b, a, heq, hb, hl⟩ := Text.slice_eq_some_iff.mp hk
      have ⟨hb, hc⟩ := Text.append_inj_of_byteLength heq hb.symm
      subst hb hc
      -- the rest starts behind the text that is replaced
      have ⟨front, rest, hf, hs⟩ := exists_append_of_applyFrom ht
      have order := e.span.start_le_stop
      have ⟨old, ho, ha⟩ : ∃ old, front = (before ++ kept) ++ old ∧ a = old ++ rest := by
        apply Text.exists_append_of_byteLength_le
        case h => simpa using hf
        case hl =>
          simp only [Text.byteLength_append]
          omega
      subst ho ha
      simp only [Text.byteLength_append] at hs
      refine .edit (by omega) (by omega) ?_
      rw [hf, ← hs, ← Text.byteLength_append, ← Text.byteLength_append, ih] at ht
      rwa [← hs, ← Text.byteLength_append, ← Text.byteLength_append]
    case mpr =>
      intro h
      cases h with
      | @edit _ kept old rest tail _ _ hs hl splice =>
        have stop : Text.byteLength ((before ++ kept) ++ old) = e.span.stop := by
          simp only [Text.byteLength_append]
          omega
        have whole : before ++ (kept ++ (old ++ rest)) = ((before ++ kept) ++ old) ++ rest := by simp
        refine ⟨?_, kept, tail, ?_, ?_, rfl⟩
        case _ =>
          rw [whole, Text.byteLength_append]
          omega
        case _ => exact Text.slice_eq_some_iff.mpr ⟨before, old ++ rest, rfl, rfl, by omega⟩
        case _ =>
          rw [whole, ← stop, ih, stop]
          exact splice

-- A patch has the edits that it is made of.
theorem perm_of_ofUnordered {p : PatchSet} (h : ofUnordered edits = .ok p) : p.edits.Perm edits := by
  unfold ofUnordered at h
  dsimp only at h
  split at h <;> cases h
  exact List.mergeSort_perm ..

theorem apply_eq_ok_iff {p : PatchSet} {text result : String} :
    p.apply text = .ok result ↔ Splice 0 text.toList p.edits result.toList := by
  have whole (out : List Char) : applyFrom text.toList (Text.byteLength text.toList) 0 p.edits
      = .ok out ↔ Splice 0 text.toList p.edits out :=
    @applyFrom_eq_ok_iff [] text.toList out p.edits
  simp only [apply, map_eq_ok, whole]
  constructor
  case mp =>
    rintro ⟨out, ho, rfl⟩
    rwa [String.toList_ofList]
  case mpr => exact fun h => ⟨result.toList, h, String.ofList_toList⟩

end PatchSet
end Repin
