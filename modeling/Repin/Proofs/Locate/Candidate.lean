import Repin.Locate.Candidate
import Repin.Proofs.Except
import Repin.Proofs.Span
import Repin.Proofs.Text.Bytes
/-!
# Candidates of separated sites

Where the sites of a document are separated, no two candidates overlap: all are kept, in the order of
the document.
-/
namespace Repin

namespace Candidate

variable {source : List Char} {sites : List Site} {site : Site} {selection : Selection}
variable {candidates kept : List Candidate} {c : Candidate} {f : Site → Option Candidate}
variable {select : Site → Except Fault (Option Selection)}

def Separated (candidates : List Candidate) : Prop :=
  candidates.Pairwise fun a b => a.span.Precedes b.span

theorem foldlM_keep (h : Separated (kept.reverse ++ candidates)) :
    candidates.foldlM keep kept = .ok (candidates.reverse ++ kept) := by
  induction candidates generalizing kept with
  | nil => rfl
  | cons c candidates ih =>
    have step : keep kept c = .ok (c :: kept) := by
      cases kept with
      | nil => rfl
      | cons last rest =>
        have before : last.span.Precedes c.span :=
          (List.pairwise_append.mp h).right.right last (by simp) c List.mem_cons_self
        simp [keep, before.overlaps_eq]
    rw [List.foldlM_cons, step, ok_bind, ih (by simpa [Separated] using h)]
    simp

theorem resolveOverlaps_eq_self (h : Separated candidates) :
    resolveOverlaps candidates = .ok candidates := by
  have sorted : candidates.mergeSort (fun a b => (compare a.span b.span).isLE) = candidates := by
    apply List.mergeSort_of_pairwise
    apply h.imp
    intro a b hab
    rw [hab.compare_eq]
    rfl
  have kept : candidates.foldlM keep [] = .ok (candidates.reverse ++ []) := foldlM_keep (by simpa using h)
  simp only [resolveOverlaps, sorted, kept]
  simp [bind, Except.bind, pure, Except.pure]

-- The candidate of one site, if the site is selected.
def atSite (source : List Char) (select : Site → Except Fault (Option Selection)) (site : Site) :
    Except Fault (Option Candidate) := do
  match ← select site with
  | none => return none
  | some selection => ofSite? source selection site

theorem atSite_of_none (h : select site = .ok none) : atSite source select site = .ok none := by
  simp [atSite, h, pure, Except.pure]

theorem atSite_of_some (h : select site = .ok (some selection)) :
    atSite source select site = ofSite? source selection site := by
  simp [atSite, h]

theorem collect_eq_ok (h : ∀ site ∈ sites, atSite source select site = .ok (f site)) :
    collect source select sites = .ok (sites.filterMap f) := by
  induction sites with
  | nil => rfl
  | cons site sites ih =>
    have tail := ih fun s hs => h s (List.mem_cons_of_mem _ hs)
    have head := h site List.mem_cons_self
    unfold atSite at head
    obtain ⟨selected, hs, head⟩ := bind_eq_ok.mp head
    unfold collect
    rw [hs, ok_bind]
    cases selected with
    | none =>
      have stays : f site = none := (Except.ok.inj head).symm
      simp [tail, stays]
    | some selection =>
      simp only at head ⊢
      rw [head, ok_bind]
      cases hc : f site with
      | none => simp [tail, hc]
      | some c => simp [tail, hc, pure, Except.pure]

theorem find_eq_ok {text : String}
    (h : ∀ site ∈ sites, atSite text.toList select site = .ok (f site))
    (hs : Separated (sites.filterMap f)) : find text sites select = .ok (sites.filterMap f) := by
  rw [find, collect_eq_ok h, ok_bind, resolveOverlaps_eq_self hs]

end Candidate
end Repin
