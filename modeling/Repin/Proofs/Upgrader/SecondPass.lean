import Repin.Proofs.Upgrader.Documents
import Repin.Readers.Standard
/-!
# A second pass changes nothing

Documents of the formats that this library reads itself are settled by one pass: the text after it is
again a document, and a pass over it makes no edit.
-/
namespace Repin

open Upgrader

-- The categories that one pass settles, and what each of them asks of its files, of the channel and of
-- the registry. Before 5.0 the name of a framework for a channel is no name of a framework, and an SDK
-- version with labels is cut apart in the tag of an image.
inductive DocumentRules.SettlesFor (channel : Channel)
    (registry : Option (String → String → DigestAnswer)) (path : String) : DocumentRules → Prop where
  | globalJson : DocumentFormat.ofPath path = .json → SettlesFor channel registry path globalJson
  | awsLambda : DocumentFormat.ofPath path = .json → 5 ≤ channel.major →
    SettlesFor channel registry path awsLambda
  | vscode : 5 ≤ channel.major → SettlesFor channel registry path vscode
  | dockerfile : channel.sdk.IsPlain →
    (∀ lookup ∈ registry, ∀ image tag, (lookup image tag).IsClean) →
      SettlesFor channel registry path dockerfile

namespace Revision

variable {readers : Readers} {rules : DocumentRules} {channel : Channel}
variable {registry : Option (String → String → DigestAnswer)} {path text : String} {sites : List Site}

theorem pass_settles (covered : rules.SettlesFor channel registry path) (policy : UpgradePolicy)
    (hs : (rules.formatOf path).sites readers text = .ok sites) :
    ∃ patch text', pass readers rules channel policy registry path text = .ok (.ok (patch, text')) ∧
      ∃ patch', pass readers rules channel policy registry path text' = .ok (.ok (patch', text')) ∧
        patch'.edits = [] := by
  cases covered with
  | globalJson format =>
    have stable : (globalJson.formatOf path).Stable readers _ _ :=
      format ▸ DocumentFormat.stable_json readers
    apply exists_second_pass stable _ hs
    apply settles_json whole_globalJson
    rintro kind rfl
    exact ⟨trivial, .inl rfl⟩
  | awsLambda format major =>
    have stable : (awsLambda.formatOf path).Stable readers _ _ :=
      format ▸ DocumentFormat.stable_json readers
    apply exists_second_pass stable _ hs
    apply settles_json whole_awsLambda
    rintro kind (rfl | rfl)
    · exact ⟨trivial, .inr (.inl rfl)⟩
    · exact ⟨major, .inr (.inr rfl)⟩
  | vscode major =>
    exact exists_second_pass (DocumentFormat.stable_json readers) (settles_vscode major) hs
  | dockerfile plain clean =>
    exact exists_second_pass (DocumentFormat.stable_dockerfile readers)
      (settles_dockerfile ⟨plain, clean⟩) hs

theorem pass_settles_pinned :
    let channel : Channel := .ofNumbers 8 0
    let lookup : String → String → DigestAnswer := fun _ _ => .ok (some "sha256:b1")
    let text := "FROM mcr.microsoft.com/dotnet/sdk:6.0@sha256:a0 AS build\nRUN dotnet publish\n"
    ∃ patch text', pass .standard dockerfile channel {} lookup "Dockerfile" text
        = .ok (.ok (patch, text')) ∧
      ∃ patch', pass .standard dockerfile channel {} lookup "Dockerfile" text'
          = .ok (.ok (patch', text')) ∧
        patch'.edits = [] := by
  intro channel lookup text
  apply pass_settles (.dockerfile ⟨rfl, rfl⟩ _) {} rfl
  intro _ hl image tag digest answer
  cases hl
  cases answer
  have clean : "sha256:b1".toList.all fun d => !Text.isBlank d := by decide
  simp only [List.all_eq_true, Bool.not_eq_true'] at clean
  exact ⟨by decide, clean⟩

end Revision
end Repin
