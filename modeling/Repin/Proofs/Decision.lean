import Repin.Decision
import Repin.Proofs.Version.Floating
import Repin.Proofs.Version.Image
import Repin.Proofs.Version.Moniker
import Repin.Proofs.Version.RuntimeIdentifier
/-!
# Decisions are honest

A token below a channel always has another text for the channel, in each of the six grammars. So the
third rule of `Decision.of` never applies: no token below the channel is left alone silently.
-/
namespace Repin

variable {text : String} {kind : TokenKind} {t : Token} {c : Channel} {newline : Newline}

theorem Semver.render_ne {version : Semver} (h : parse text = .ok version)
    (hl : compare version.toNumeric c.sdk.toNumeric = .lt) : c.sdk.render ≠ text := by
  rintro rfl
  rw [parse_eq_of_render] at h
  cases h
  simp at hl

namespace ManagedRuntime

-- A digit behind `dotnet` is no legacy name.
theorem read_forChannel (c : Channel) : read (forChannel c).toList = .ok ⟨c.major, none⟩ := by
  have ne := Text.writeNumber_ne_nil (n := c.major)
  have number := Text.readNumber_writeNumber c.major
  cases hd : (Text.writeNumber c.major).toList
  case nil => contradiction
  case cons d ds =>
    have digit : 'c' ≠ d := by
      rintro rfl
      have := Text.isDigit_of_mem_writeNumber (n := c.major) (c := 'c') (by simp [hd])
      simp at this
    rw [hd] at number
    simp [read, forChannel, hd, Text.stripStart?, digit, number]

theorem forChannel_ne {runtime : ManagedRuntime} (h : parse text = .ok runtime)
    (hl : runtime.isAtLeast c = false) : forChannel c ≠ text := by
  rintro rfl
  have read := mapError_eq_ok.mp h
  rw [read_forChannel] at read
  cases read
  simp [isAtLeast] at hl

end ManagedRuntime

namespace Token

theorem parse_eq_ok (h : parse text kind = .ok t) :
    t.raw = text ∧ parseValue text kind = .ok t.value := by
  obtain ⟨value, hv, rfl⟩ := map_eq_ok.mp h
  exact ⟨rfl, hv⟩

theorem kind_of_parse (h : parse text kind = .ok t) : t.kind = kind := by
  have ⟨_, hv⟩ := parse_eq_ok h
  unfold Token.kind
  cases kind <;> simp only [parseValue, mapError_eq_ok, map_eq_ok] at hv <;>
    obtain ⟨_, _, hv⟩ := hv <;> rw [← hv] <;> rfl

-- Whether the values that a token lists can be ranked, if it is a list of floating expressions.
def Ranks (t : Token) : Prop :=
  ∀ l, t.value = .floating l → l.Ranks

theorem exists_upgraded (h : parse text kind = .ok t) (ranks : t.Ranks) (c : Channel)
    (newline : Newline) : ∃ new, t.upgraded c newline = .ok new := by
  have ⟨_, hv⟩ := parse_eq_ok h
  unfold upgraded
  cases kind <;> simp only [parseValue, mapError_eq_ok, map_eq_ok] at hv <;>
    obtain ⟨l, hp, hv⟩ := hv <;> rw [← hv]
  case floatingChannel => exact FloatingList.exists_upgraded c newline hp (ranks l hv.symm)
  all_goals exact ⟨_, rfl⟩

-- One lemma for each grammar says that the text of a channel differs from any text below it.
theorem upgraded_ne {new : String} (h : parse text kind = .ok t) (hl : t.isAtLeast c = false)
    (hu : t.upgraded c newline = .ok new) : new ≠ text := by
  have ⟨_, hv⟩ := parse_eq_ok h
  unfold isAtLeast at hl
  unfold upgraded at hu
  cases kind <;> simp only [parseValue, mapError_eq_ok, map_eq_ok] at hv <;>
    obtain ⟨_, hp, hv⟩ := hv <;> rw [← hv] at hl hu
  case floatingChannel => exact FloatingList.upgraded_ne hp hl hu
  all_goals cases hu
  case frameworkMoniker => exact MonikerList.upgraded_ne hp hl
  case registrySemver => exact Semver.render_ne hp (by simpa using hl)
  case runtimeIdentifier => exact RuntimeIdentifierList.toPortable_ne hp hl
  case managedRuntime => exact ManagedRuntime.forChannel_ne hp hl
  case imageTag => exact ImageReference.upgraded_ne hp hl

-- Of the tokens only lists of floating expressions are ranked.
theorem exists_upgraded_of_kind (h : t.kind ≠ .floatingChannel) (c : Channel) (newline : Newline) :
    ∃ new, t.upgraded c newline = .ok new := by
  unfold upgraded
  unfold kind at h
  cases hv : t.value
  case floating => exact absurd (congrArg TokenValue.kind hv) h
  all_goals exact ⟨_, rfl⟩

end Token

namespace Decision

variable {p : UpgradePolicy}

theorem exists_of (h : t.kind ≠ .floatingChannel) (c : Channel) (p : UpgradePolicy)
    (newline : Newline) : ∃ d, of t c p newline = .ok d := by
  have ⟨_, hu⟩ := Token.exists_upgraded_of_kind h c newline
  unfold of
  rw [hu, ok_bind]
  split
  case isTrue => exact ⟨_, rfl⟩
  case isFalse => split <;> exact ⟨_, rfl⟩

-- What is below the channel and may move there is replaced. The text for the channel is another one.
theorem of_of_allows (h : Token.parse text kind = .ok t) (hl : t.isAtLeast c = false)
    (allowed : p.allows kind c) : of t c p newline = .replace <$> t.upgraded c newline := by
  rw [of, hl, Token.kind_of_parse h, allowed]
  cases hu : t.upgraded c newline with
  | error => rfl
  | ok new =>
    have ne : new ≠ t.raw := (Token.parse_eq_ok h).left ▸ Token.upgraded_ne h hl hu
    simp [ne, pure, Except.pure, Functor.map, Except.map]

-- The first rule that fits decides, and the last two fit tokens below the channel only. `newline` is
-- the line convention that a list of several lines gains a line in. A list has no text for the channel
-- where its entries cannot be ranked.
theorem of_parse (h : Token.parse text kind = .ok t) (c : Channel) (p : UpgradePolicy)
    (newline : Newline) :
    t.raw = text ∧ t.kind = kind ∧
    (of t c p newline = .ok .unchanged ↔ t.isAtLeast c) ∧
    (of t c p newline = .ok .unsupported ↔
      t.isAtLeast c = false ∧ p.gates kind ∧ c.isSupportedLts = false) ∧
    (t.isAtLeast c = false → ¬ (p.gates kind ∧ c.isSupportedLts = false) →
      of t c p newline = .replace <$> t.upgraded c newline) ∧
    (∀ s, of t c p newline = .ok (.replace s) → t.upgraded c newline = .ok s ∧ s ≠ t.raw) ∧
    (t.Ranks → ∃ s, t.upgraded c newline = .ok s) := by
  have raw := (Token.parse_eq_ok h).left
  have same := Token.kind_of_parse h
  refine ⟨raw, same, ?_⟩
  have ranked : t.Ranks → _ := fun ranks => Token.exists_upgraded h ranks c newline
  cases hl : t.isAtLeast c with
  | true => simpa [of, hl] using ranked
  | false =>
    by_cases gated : p.gates kind ∧ c.isSupportedLts = false
    case pos => simpa [of, hl, UpgradePolicy.allows, same, gated] using ranked
    case neg =>
      have allowed : p.allows kind c = true := by
        simpa [UpgradePolicy.allows, or_iff_not_imp_left] using gated
      rw [of_of_allows h hl allowed]
      have unlike (d : Decision) (hd : ∀ s, d ≠ .replace s) :
          .replace <$> t.upgraded c newline ≠ .ok d := by
        intro eq
        have ⟨s, _, hs⟩ := map_eq_ok.mp eq
        exact hd s hs.symm
      refine ⟨by simpa using unlike .unchanged fun _ => nofun,
        by simpa [gated] using unlike .unsupported fun _ => nofun, fun _ _ => rfl, ?_, ranked⟩
      intro s hs
      obtain ⟨_, hu, ⟨⟩⟩ := map_eq_ok.mp hs
      exact ⟨hu, raw ▸ Token.upgraded_ne h hl hu⟩

theorem of_parse_dotnet6 :
    let c : Channel := .ofNumbers 8 0
    let t : Token := ⟨"dotnet6", .runtime ⟨6, none⟩⟩
    Token.parse "dotnet6" .managedRuntime = .ok t ∧
      of t c {} .lf = .ok (.replace "dotnet8") ∧ "dotnet8" ≠ t.raw := by
  have parsed : Token.parse "dotnet6" .managedRuntime = .ok ⟨"dotnet6", .runtime ⟨6, none⟩⟩ := by
    decide
  have ⟨_, _, _, _, replaced, differs, _⟩ := of_parse parsed (.ofNumbers 8 0) {} .lf
  have replaced := replaced (by decide) (by decide)
  exact ⟨parsed, replaced, (differs _ replaced).right⟩

end Decision
end Repin
