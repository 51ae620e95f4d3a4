import Repin.Proofs.Locate.Change
import Repin.Proofs.Text.Blank
import Repin.Xml.Document
/-!
# Texts in their source

A run of text that can be patched stands in the source between its blanks, whatever place and content
were read for it. An attribute cannot be patched.
-/
namespace Repin

namespace Xml.Node

variable {source : List Char} {s : Site}

theorem shows_of_textSite? {path : List Frame} {span : Span} {text : String}
    (h : textSite? source path span text = some s) : s.Shows source := by
  unfold textSite? at h
  dsimp only at h
  split at h
  case isTrue => cases h
  case isFalse =>
    cases h
    intro exact'
    have exact' := of_decide_eq_true exact'
    have inside := Text.slice_slice exact' (Text.slice_trim text.toList)
    simpa [exact', Span.ofLength, Nat.add_assoc] using inside

theorem shows_of_mem_attributeSites {path : List Frame} {start : Nat}
    {attributes : List (String × String)} (h : s ∈ attributeSites path start attributes) :
    s.Shows source := by
  obtain ⟨_, _, rfl⟩ := List.mem_map.mp h
  exact nofun

mutual

theorem shows_of_mem_sitesOf : ∀ {path : List Frame} {node : Node}, s ∈ sitesOf source path node →
    s.Shows source
  | path, .text span value, h => by
    rw [sitesOf] at h
    exact shows_of_textSite? (Option.mem_toList.mp h)
  | path, .element name start attributes children, h => by
    rw [sitesOf, List.mem_append] at h
    cases h
    case inl h => exact shows_of_mem_attributeSites h
    case inr h => exact shows_of_mem_sitesOfChildren h

theorem shows_of_mem_sitesOfChildren : ∀ {path : List Frame} {children : List Node},
    s ∈ sitesOfChildren source path children → s.Shows source
  | path, [], h => by simp [sitesOfChildren] at h
  | path, child :: children, h => by
    rw [sitesOfChildren, List.mem_append] at h
    cases h
    case inl h => exact shows_of_mem_sitesOf h
    case inr h => exact shows_of_mem_sitesOfChildren h

end

end Xml.Node
end Repin
