import Repin.Proofs.Decision
import Repin.Proofs.Upgrader.Format
import Repin.Proofs.Version.MovedImage
import Repin.Proofs.Version.PinnedImage
/-!
# Tokens that got their text

What is read from the text of a token for a channel reaches the channel, so nothing more is asked of
it. This lifts to the sites of rules that read whole values.
-/
namespace Repin

variable {channel : Channel} {policy : UpgradePolicy} {newline newline' : Newline}
variable {registry : Option (String → String → DigestAnswer)}
variable {token token' : Token} {kind : TokenKind} {raw text : String}

-- Digests that can stand in a reference.
def DigestAnswer.IsClean (answer : DigestAnswer) : Prop :=
  ∀ digest, answer = .ok (some digest) → digest ≠ "" ∧ ∀ d ∈ digest.toList, Text.isBlank d = false

-- What the channel and the registry have to keep to, so that tokens of a kind settle.
def Channel.Suits (channel : Channel) (registry : Option (String → String → DigestAnswer)) :
    TokenKind → Prop
  | .registrySemver | .managedRuntime => True
  | .frameworkMoniker => 5 ≤ channel.major
  | .imageTag => channel.sdk.IsPlain ∧ ∀ lookup ∈ registry, ∀ image tag, (lookup image tag).IsClean
  | .runtimeIdentifier | .floatingChannel => False

theorem Decision.of_of_isAtLeast (h : token.isAtLeast channel) :
    Decision.of token channel policy newline = .ok .unchanged := by
  simp [of, h]

theorem Decision.isAtLeast_of_replace
    (h : Decision.of token channel policy newline = .ok (.replace text)) :
    token.isAtLeast channel = false ∧ token.upgraded channel newline = .ok text := by
  unfold of at h
  split at h
  case isTrue => cases h
  case isFalse below =>
    split at h
    case isTrue => cases h
    case isFalse =>
      obtain ⟨new, hu, h⟩ := bind_eq_ok.mp h
      split at h <;> cases h
      case isFalse => exact ⟨by simpa using below, hu⟩

-- Lists of floating expressions alone know about line conventions.
theorem Token.upgraded_congr (h : token.kind ≠ .floatingChannel) :
    token.upgraded channel newline = token.upgraded channel newline' := by
  unfold upgraded
  cases hv : token.value <;> simp_all [kind, TokenValue.kind]

namespace Revision

variable {rules : DocumentRules}

theorem text?_of_isAtLeast (h : token.isAtLeast channel) :
    text? rules channel policy registry newline token = none := by
  simp [text?, Decision.of_of_isAtLeast h]

theorem text?_congr (h : token.kind ≠ .floatingChannel) :
    text? rules channel policy registry newline token
      = text? rules channel policy registry newline' token := by
  unfold text? Decision.of
  rw [Token.upgraded_congr h]

theorem text?_eq_some (h : text? rules channel policy registry newline token = some text) :
    token.isAtLeast channel = false ∧ ∃ new, token.upgraded channel newline = .ok new ∧
      (text = new ∨ ∃ image, token.value = .image image ∧ image.digest.isSome ∧
        pinnedText? registry new = some text) := by
  unfold text? at h
  split at h
  case h_2 => cases h
  case h_1 new hd =>
    have ⟨below, hu⟩ := Decision.isAtLeast_of_replace hd
    refine ⟨below, new, hu, ?_⟩
    split at h
    case h_1 image hv =>
      split at h
      case isTrue pinned =>
        exact .inr ⟨image, hv, (Bool.and_eq_true_iff.mp pinned).right, h⟩
      case isFalse => exact .inl (Option.some.inj h).symm
    case h_2 => exact .inl (Option.some.inj h).symm

theorem pinnedText?_eq_some (h : pinnedText? registry raw = some text) :
    ∃ lookup ∈ registry, ∃ image tag digest, lookup image tag = .ok (some digest) ∧
      text = ImageReference.replaceDigest raw digest := by
  unfold pinnedText? at h
  obtain ⟨image, -, h⟩ := Option.bind_eq_some_iff.mp h
  obtain ⟨lookup, hl, h⟩ := Option.bind_eq_some_iff.mp h
  obtain ⟨digest, hd, h⟩ := Option.bind_eq_some_iff.mp h
  refine ⟨lookup, hl, image.repository, image.tagText, digest, ?_, (Option.some.inj h).symm⟩
  cases ha : lookup image.repository image.tagText with
  | error => simp [ha, Except.toOption] at hd
  | ok answer => simpa [ha, Except.toOption] using hd

-- The text for an image is the reference with its runs moved, with a new digest if it has one.
theorem exists_imageText {image : ImageReference} (hv : token.value = .image image)
    (hp : ImageReference.parse raw = .ok image) (suits : channel.Suits registry .imageTag)
    (h : text? rules channel policy registry newline token = some text) :
    ∃ digest, digest ≠ some "" ∧ (∀ s ∈ digest, ∀ d ∈ s.toList, Text.isBlank d = false) ∧
      text.toList = image.repository.toList ++ ':' :: image.written channel image.tag
        ++ ImageReference.digestText digest := by
  obtain ⟨tag, isRead⟩ := ImageReference.isRead_of_parse hp
  have own : ∀ s ∈ image.digest, ∀ d ∈ s.toList, Text.isBlank d = false := by
    intro s hs d hd
    apply isRead.blank d
    rw [isRead.text, Option.mem_def.mp hs]
    simp [ImageReference.digestText, hd]
  obtain ⟨below, new, hu, kept⟩ := text?_eq_some h
  obtain rfl : image.upgraded channel = new := by simpa [Token.upgraded, hv] using hu
  obtain rfl | ⟨pinned, hv', some, hpin⟩ := kept
  case inl =>
    refine ⟨image.digest, isRead.digest_ne, own, ?_⟩
    rw [ImageReference.toList_upgraded]
  case inr =>
    cases hv.symm.trans hv'
    obtain ⟨lookup, hl, asked, tag', digest, answer, heq⟩ := pinnedText?_eq_some hpin
    obtain ⟨ne, clean⟩ := suits.right lookup hl asked tag' digest answer
    refine ⟨digest, by simpa using ne, by simpa using clean, ?_⟩
    rw [heq, ImageReference.replaceDigest_upgraded hp some]
    simp [ImageReference.toList_upgradedTag, ImageReference.digestText]

theorem eq_upgraded_of_text? (hk : token.kind ≠ .imageTag)
    (h : text? rules channel policy registry newline token = some text) :
    token.upgraded channel newline = .ok text := by
  obtain ⟨_, new, hu, rfl | ⟨image, hv, _⟩⟩ := text?_eq_some h
  · exact hu
  · exact absurd (by simp [Token.kind, hv, TokenValue.kind]) hk

-- In every grammar that a pass may meet, the text for a token is read as a token that reaches the
-- channel.
theorem isAtLeast_of_text? (suits : channel.Suits registry kind) (hp : Token.parse raw kind = .ok token)
    (h : text? rules channel policy registry newline token = some text)
    (hp' : Token.parse text kind = .ok token') : token'.isAtLeast channel := by
  obtain ⟨_, hv⟩ := Token.parse_eq_ok hp
  obtain ⟨_, hv'⟩ := Token.parse_eq_ok hp'
  have below := (text?_eq_some h).left
  have same := Token.kind_of_parse hp
  unfold Token.isAtLeast at below ⊢
  cases kind
  case runtimeIdentifier => exact suits.elim
  case floatingChannel => exact suits.elim
  case frameworkMoniker =>
    obtain ⟨list, hl, hv⟩ := map_eq_ok.mp (mapError_eq_ok.mp hv)
    obtain ⟨list', hl', hv'⟩ := map_eq_ok.mp (mapError_eq_ok.mp hv')
    have heq := eq_upgraded_of_text? (by simp [same]) h
    simp only [Token.upgraded, ← hv, Except.ok.injEq] at heq
    rw [← hv] at below
    obtain ⟨again, parsed, reached⟩ := MonikerList.parse_upgraded hl below suits
    rw [heq, hl'] at parsed
    cases parsed
    rw [← hv']
    exact reached
  case registrySemver =>
    obtain ⟨version, hl, hv⟩ := map_eq_ok.mp (mapError_eq_ok.mp hv)
    obtain ⟨version', hl', hv'⟩ := map_eq_ok.mp (mapError_eq_ok.mp hv')
    have heq := eq_upgraded_of_text? (by simp [same]) h
    simp only [Token.upgraded, ← hv, Except.ok.injEq] at heq
    rw [← heq, Semver.parse_eq_of_render] at hl'
    cases hl'
    rw [← hv']
    simp
  case managedRuntime =>
    obtain ⟨runtime, hl, hv⟩ := map_eq_ok.mp (mapError_eq_ok.mp hv)
    obtain ⟨runtime', hl', hv'⟩ := map_eq_ok.mp (mapError_eq_ok.mp hv')
    have heq := eq_upgraded_of_text? (by simp [same]) h
    simp only [Token.upgraded, ← hv, Except.ok.injEq] at heq
    have read := mapError_eq_ok.mp hl'
    rw [← heq, ManagedRuntime.read_forChannel] at read
    cases read
    rw [← hv']
    simp [ManagedRuntime.isAtLeast]
  case imageTag =>
    obtain ⟨image, hl, hv⟩ := map_eq_ok.mp (mapError_eq_ok.mp hv)
    obtain ⟨image', hl', hv'⟩ := map_eq_ok.mp (mapError_eq_ok.mp hv')
    obtain ⟨digest, ne, clean, heq⟩ := exists_imageText hv.symm hl suits h
    have parsed := ImageReference.parse_moved suits.left hl ne clean
    rw [← heq, String.ofList_toList, hl'] at parsed
    cases parsed
    rw [← hv']
    exact image.isAtLeast_moved channel digest

end Revision
end Repin
