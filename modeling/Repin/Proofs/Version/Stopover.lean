import Repin.Proofs.Decision
import Repin.Proofs.Version.FloatingLines
import Repin.Proofs.Version.MonikerItems
import Repin.Proofs.Version.PortableList
import Repin.Proofs.Version.Precedence
/-!
# Moving by way of a lower channel

A single value that is moved to a channel and then to a higher one ends as if it had been moved there
at once. What is written for the first channel has the shape of the value, and it is below the second
channel, unless its shape does not tell the two channels apart.

Main statement: `Token.proposed_after_stopover`.
-/
namespace Repin

variable {c c₁ c₂ : Channel} {text : String}

namespace Channel

-- The numbers of a channel are lower than those of another one.
def IsBelow (c₁ c₂ : Channel) : Prop :=
  c₁.major < c₂.major ∨ c₁.major = c₂.major ∧ c₁.minor < c₂.minor

instance : Decidable (c₁.IsBelow c₂) :=
  inferInstanceAs (Decidable (_ ∨ _))

theorem IsBelow.major_le (h : c₁.IsBelow c₂) : c₁.major ≤ c₂.major := by
  obtain h | ⟨h, _⟩ := h
  · exact UInt64.le_of_lt h
  · exact UInt64.le_of_eq h

theorem IsBelow.isReachedBy_self (h : c₁.IsBelow c₂) :
    c₂.isReachedBy c₁.major c₁.minor = false := by
  unfold IsBelow at h
  unfold isReachedBy reaches
  grind

-- What does not reach a channel does not reach a higher one.
theorem IsBelow.isReachedBy {major minor : UInt64} (h : c₁.IsBelow c₂)
    (hr : c₁.isReachedBy major minor = false) : c₂.isReachedBy major minor = false := by
  unfold IsBelow at h
  unfold Channel.isReachedBy reaches at *
  grind

theorem IsBelow.compare_sdk (h : c₁.IsBelow c₂) :
    compare c₁.sdk.toNumeric c₂.sdk.toNumeric = .lt := by
  apply NumericVersion.compare_eq_lt_iff.mpr
  cases h with
  | inl major => exact .major major
  | inr minor => exact .minor minor.left minor.right

end Channel

namespace FloatingExpr

theorem upgraded_moved (e : FloatingExpr) : (e.moved c₁).upgraded c₂ = e.upgraded c₂ := by
  cases e <;> rfl

theorem isAtLeast_of_isBelow {e : FloatingExpr} (h : c₁.IsBelow c₂) (hl : e.isAtLeast c₁ = false) :
    e.isAtLeast c₂ = false := by
  unfold isAtLeast at *
  split at hl
  case h_1 n hn =>
    exact h.isReachedBy hl
  case h_2 hn =>
    have low := UInt64.not_le.mp (of_decide_eq_false hl)
    exact decide_eq_false (UInt64.not_le.mpr (UInt64.lt_of_lt_of_le low h.major_le))

-- The shape of an expression may be too coarse to tell one channel from another.
theorem upgraded_eq_of_isAtLeast_moved {e : FloatingExpr} (h : c₁.IsBelow c₂)
    (hl : (e.moved c₁).isAtLeast c₂) : e.upgraded c₁ = e.upgraded c₂ := by
  have same (hm : c₂.major ≤ c₁.major) : c₁.major = c₂.major := UInt64.le_antisymm h.major_le hm
  have lower := h.isReachedBy_self
  cases e
  case major => rw [upgraded, upgraded, same (of_decide_eq_true hl)]
  case anyMinor => rw [upgraded, upgraded, same (of_decide_eq_true hl)]
  all_goals exact absurd (lower.symm.trans hl) (by decide)

end FloatingExpr

namespace FloatingList

variable {l : FloatingList}

theorem upgraded_after_stopover (h : parse text = .ok l) (single : l.entries.length = 1)
    (release : c₁.sdk.build = none) (below : c₁.IsBelow c₂) (newline : Newline) :
    ∃ stop l', l.upgraded c₁ newline = .ok stop ∧ parse stop = .ok l' ∧
      l'.upgraded c₂ newline = l.upgraded c₂ newline := by
  cases low : l.isAtLeast c₁ with
  | true => exact ⟨l.text, l, upgraded_of_isAtLeast low, by rwa [parse_text h], rfl⟩
  | false =>
    obtain ⟨before, indent, written, rest, e, after, old⟩ := exists_isSole single
    obtain ⟨l', parsed, new⟩ := old.parse_replaceOnly h release
    have low : e.expr.isAtLeast c₁ = false := by simpa [isAtLeast, old.entries] using low
    have low' := FloatingExpr.isAtLeast_of_isBelow below low
    have stop : l.upgraded c₁ newline = .ok (l.replaceOnly c₁) := by
      simp [upgraded, isMultiLine, isAtLeast, old.entries, low]
    have direct : l.upgraded c₂ newline = .ok (l.replaceOnly c₂) := by
      simp [upgraded, isMultiLine, isAtLeast, old.entries, low']
    refine ⟨_, l', stop, parsed, ?_⟩
    rw [direct]
    cases there : (e.expr.moved c₁).isAtLeast c₂ with
    | true =>
      have same := FloatingExpr.upgraded_eq_of_isAtLeast_moved below there
      have still : l'.upgraded c₂ newline = .ok (l.replaceOnly c₁) := by
        simp [upgraded, isAtLeast, new.entries, there, parse_text parsed]
      rw [still]
      refine congrArg Except.ok (String.toList_inj.mp ?_)
      rw [old.toList_replaceOnly, old.toList_replaceOnly, same]
    | false =>
      have again : l'.upgraded c₂ newline = .ok (l'.replaceOnly c₂) := by
        simp [upgraded, isMultiLine, isAtLeast, new.entries, there]
      rw [again]
      refine congrArg Except.ok (String.toList_inj.mp ?_)
      rw [new.toList_replaceOnly, old.toList_replaceOnly, FloatingExpr.upgraded_moved]

end FloatingList

-- The moniker of a channel gives way to that of another one as the moniker before it does.
theorem MonikerPiece.moved_read_moved {cs : List Char} (five : 5 ≤ c₁.major) :
    moved c₂ (read (moved c₁ (read cs))) = moved c₂ (read cs) := by
  cases hm : (read cs).moniker? with
  | none => rw [moved_of_none hm]
  | some m =>
    have again := Moniker.read_forChannel (c := c₁) (Moniker.platform_ne (moniker?_read.mp hm))
    rw [if_neg (UInt64.not_lt.mpr five)] at again
    have moniker : (Moniker.parse (Moniker.forChannel c₁ m.platform)).toOption
        = some ⟨.net, .release c₁.major (some c₁.minor) none, m.platform⟩ := by
      rw [Moniker.parse, again]
      rfl
    rw [read_moved_of_some hm, moniker, moved, moved, hm]

namespace MonikerList

variable {l : MonikerList}

theorem isAtLeast_of_isBelow (h : c₁.IsBelow c₂) (hl : l.isAtLeast c₁ = false) :
    l.isAtLeast c₂ = false := by
  unfold isAtLeast at *
  split at hl
  case h_1 => exact h.isReachedBy hl
  case h_2 => cases hl

theorem upgraded_after_stopover (h : parse text = .ok l) (single : l.items.length = 1)
    (five : 5 ≤ c₁.major) (below : c₁.IsBelow c₂) :
    ∃ l', parse (l.upgraded c₁) = .ok l' ∧ l'.upgraded c₂ = l.upgraded c₂ := by
  cases low : l.isAtLeast c₁ with
  | true => exact ⟨l, by rw [upgraded, if_pos low, parse_text h]; exact h, rfl⟩
  | false =>
    have low' := isAtLeast_of_isBelow below low
    have stop : l.upgraded c₁ = l.replaceOnly c₁ := by simp [upgraded, low, single]
    have direct : l.upgraded c₂ = l.replaceOnly c₂ := by simp [upgraded, low', single]
    obtain ⟨l', parsed, _⟩ := parse_upgraded h low five
    refine ⟨l', parsed, ?_⟩
    have item : itemsOf (l.upgraded c₁).toList = [l.newItem c₁] := by
      obtain ⟨_, m, _, _, highest, _⟩ := exists_below h low
      obtain ⟨item, leads⟩ := exists_leads h highest
      obtain ⟨other, sole⟩ := List.length_eq_one_iff.mp (length_items h ▸ single)
      obtain rfl : item = other := by simpa [sole] using leads.mem
      obtain ⟨_, _, _, _, _, items⟩ := replaceOnly_sole (c := c₁) h sole leads.read
      rw [stop, items, newItem, highest, Option.bind_some]
    have single' : l'.items.length = 1 := by rw [length_items parsed, item, List.length_singleton]
    have there : l'.isAtLeast c₂ = false := by
      obtain ⟨platform, new⟩ := moving?_newItem h low
      rw [if_neg (UInt64.not_lt.mpr five)] at new
      have moving := filterMap_moving? parsed
      rw [item, List.filterMap_cons_some new, List.filterMap_nil] at moving
      simp [isAtLeast, highest?, ← moving, firstHighest?, NumericVersion.release,
        below.isReachedBy_self]
    have again : l'.upgraded c₂ = l'.replaceOnly c₂ := by simp [upgraded, there, single']
    rw [again, direct]
    apply String.toList_inj.mp
    have pieces := pieces_of_parse parsed
    rw [stop, splitAt_replaceOnly h, pieces_of_parse h] at pieces
    rw [toList_replaceOnly, toList_replaceOnly, pieces, pieces_of_parse h]
    simp [Function.comp_def, MonikerPiece.moved_read_moved five]

end MonikerList

theorem RuntimeIdentifierList.toPortable_after_stopover {l : RuntimeIdentifierList}
    (h : parse text = .ok l) :
    ∃ l', parse l.toPortable = .ok l' ∧ l'.toPortable = l.toPortable := by
  cases portable : l.isPortable with
  | true =>
    have ⟨same, _⟩ := parse_eq_ok_iff.mp h
    have kept : l.toPortable = text := by rw [toPortable, if_pos portable, same]
    exact ⟨l, kept ▸ h, rfl⟩
  | false =>
    obtain ⟨l', parsed, text', portable'⟩ := exists_parse_toPortable h portable
    exact ⟨l', parsed, by rw [toPortable, if_pos portable', text']⟩

namespace ManagedRuntime

variable {r : ManagedRuntime}

theorem parse_forChannel (c : Channel) : parse (forChannel c) = .ok ⟨c.major, none⟩ :=
  mapError_eq_ok.mpr (read_forChannel c)

theorem isAtLeast_of_isBelow (h : c₁.IsBelow c₂) (hl : r.isAtLeast c₁ = false) :
    r.isAtLeast c₂ = false := by
  have low := UInt64.not_le.mp (of_decide_eq_false hl)
  exact decide_eq_false (UInt64.not_le.mpr (UInt64.lt_of_lt_of_le low h.major_le))

-- The runtimes of two channels of one major are the same.
theorem forChannel_eq_of_isAtLeast (h : c₁.IsBelow c₂) (hl : isAtLeast ⟨c₁.major, none⟩ c₂) :
    forChannel c₁ = forChannel c₂ := by
  have same : c₁.major = c₂.major := UInt64.le_antisymm h.major_le (of_decide_eq_true hl)
  rw [forChannel, forChannel, same]

end ManagedRuntime

-- The values that a move replaces, none of which gains a further one.
def TokenValue.IsSingle : TokenValue → Prop
  | monikers l => l.items.length = 1
  | floating l => l.entries.length = 1
  | semver _ | identifiers _ | runtime _ => True
  | image _ => False

namespace Token

variable {kind : TokenKind} {t : Token} {p : UpgradePolicy} {newline : Newline}

-- The text that is proposed for a token, which is its own where none is.
def proposed (t : Token) (c : Channel) (p : UpgradePolicy) (newline : Newline) :
    Except Fault String := do
  match ← Decision.of t c p newline with
  | .replace text => return text
  | .unchanged | .unsupported => return t.raw

-- What becomes of the text of a token that no policy keeps.
def moved (t : Token) (c : Channel) (newline : Newline) : Except Fault String :=
  if t.isAtLeast c then .ok t.raw else t.upgraded c newline

theorem proposed_eq (free : p.gates t.kind = false) : t.proposed c p newline = t.moved c newline := by
  unfold proposed Decision.of UpgradePolicy.allows moved
  cases t.isAtLeast c with
  | true => rfl
  | false =>
    cases t.upgraded c newline with
    | error => simp [free]
    | ok new => by_cases same : new = t.raw <;> simp [free, same, pure, Except.pure]

theorem ranks_of_isSingle (single : t.value.IsSingle) : t.Ranks := by
  intro l value several
  have length : l.entries.length = 1 := by simpa [value, TokenValue.IsSingle] using single
  simp [FloatingList.isMultiLine, length] at several

theorem moved_of_reached (h : t.isAtLeast c) : t.moved c newline = .ok t.raw :=
  if_pos h

theorem moved_of_below (h : t.isAtLeast c = false) : t.moved c newline = t.upgraded c newline :=
  if_neg (by simp [h])

-- A list that needs nothing is written as it was.
theorem moved_monikers {l : MonikerList} (h : MonikerList.parse text = .ok l) :
    moved ⟨text, .monikers l⟩ c newline = .ok (l.upgraded c) := by
  cases hl : l.isAtLeast c <;> simp [moved, isAtLeast, upgraded, MonikerList.upgraded, hl,
    MonikerList.parse_text h]

theorem moved_identifiers {l : RuntimeIdentifierList} (h : RuntimeIdentifierList.parse text = .ok l) :
    moved ⟨text, .identifiers l⟩ c newline = .ok l.toPortable := by
  have ⟨same, _⟩ := RuntimeIdentifierList.parse_eq_ok_iff.mp h
  have kept : l.text = text := by rw [same]
  cases hl : l.isPortable <;> simp [moved, isAtLeast, upgraded, RuntimeIdentifierList.toPortable, hl,
    kept]

theorem moved_floating {l : FloatingList} (h : FloatingList.parse text = .ok l) :
    moved ⟨text, .floating l⟩ c newline = l.upgraded c newline := by
  cases hl : l.isAtLeast c <;> simp [moved, isAtLeast, upgraded, FloatingList.upgraded, hl,
    FloatingList.parse_text h]

theorem moved_semver_after_stopover {v : Semver} (below : c₁.IsBelow c₂)
    (low : isAtLeast ⟨text, .semver v⟩ c₁ = false) :
    moved ⟨c₁.sdk.render, .semver c₁.sdk⟩ c₂ newline = moved ⟨text, .semver v⟩ c₂ newline := by
  have low : compare v.toNumeric c₁.sdk.toNumeric = .lt := by simpa [isAtLeast] using low
  have there : isAtLeast ⟨c₁.sdk.render, .semver c₁.sdk⟩ c₂ = false := by
    simp [isAtLeast, below.compare_sdk]
  have direct : isAtLeast ⟨text, .semver v⟩ c₂ = false := by
    simp [isAtLeast, Std.TransCmp.lt_trans low below.compare_sdk]
  rw [moved_of_below there, moved_of_below direct]
  rfl

theorem moved_runtime_after_stopover {r : ManagedRuntime} (below : c₁.IsBelow c₂)
    (low : r.isAtLeast c₁ = false) :
    moved ⟨ManagedRuntime.forChannel c₁, .runtime ⟨c₁.major, none⟩⟩ c₂ newline
      = moved ⟨text, .runtime r⟩ c₂ newline := by
  have direct : isAtLeast ⟨text, .runtime r⟩ c₂ = false :=
    ManagedRuntime.isAtLeast_of_isBelow below low
  rw [moved_of_below direct]
  cases there : isAtLeast ⟨ManagedRuntime.forChannel c₁, .runtime ⟨c₁.major, none⟩⟩ c₂ with
  | true =>
    exact (moved_of_reached there).trans
      (congrArg _ (ManagedRuntime.forChannel_eq_of_isAtLeast below there))
  | false => exact moved_of_below there

-- A token at the first channel is left as it is. Below it, each grammar has its own reason.
theorem moved_after_stopover {value : TokenValue} (h : parseValue text kind = .ok value)
    (single : value.IsSingle) (five : 5 ≤ c₁.major) (release : c₁.sdk.build = none)
    (below : c₁.IsBelow c₂) (newline : Newline) : ∃ stop value',
      moved ⟨text, value⟩ c₁ newline = .ok stop ∧ parseValue stop kind = .ok value' ∧
        moved ⟨stop, value'⟩ c₂ newline = moved ⟨text, value⟩ c₂ newline := by
  cases low : isAtLeast ⟨text, value⟩ c₁ with
  | true => exact ⟨text, value, moved_of_reached low, h, rfl⟩
  | false =>
    have stop : moved ⟨text, value⟩ c₁ newline = upgraded ⟨text, value⟩ c₁ newline :=
      moved_of_below low
    cases kind <;> simp only [parseValue, mapError_eq_ok, map_eq_ok] at h ⊢ <;>
      obtain ⟨v, parsed, rfl⟩ := h
    case frameworkMoniker =>
      obtain ⟨l', parsed', same⟩ := MonikerList.upgraded_after_stopover parsed single five below
      refine ⟨_, _, moved_monikers parsed, ⟨l', parsed', rfl⟩, ?_⟩
      rw [moved_monikers parsed', moved_monikers parsed, same]
    case registrySemver =>
      exact ⟨_, _, stop, ⟨_, Semver.parse_eq_of_render c₁.sdk, rfl⟩,
        moved_semver_after_stopover below low⟩
    case runtimeIdentifier =>
      obtain ⟨l', parsed', same⟩ := RuntimeIdentifierList.toPortable_after_stopover parsed
      refine ⟨_, _, moved_identifiers parsed, ⟨l', parsed', rfl⟩, ?_⟩
      rw [moved_identifiers parsed', moved_identifiers parsed, same]
    case managedRuntime =>
      exact ⟨_, _, stop, ⟨_, ManagedRuntime.parse_forChannel c₁, rfl⟩,
        moved_runtime_after_stopover below low⟩
    case floatingChannel =>
      obtain ⟨between, l', written, parsed', same⟩ :=
        FloatingList.upgraded_after_stopover parsed single release below newline
      refine ⟨between, _, (moved_floating parsed).trans written, ⟨l', parsed', rfl⟩, ?_⟩
      rw [moved_floating parsed', moved_floating parsed, same]
    case imageTag => cases single

theorem exists_moved (h : parse text kind = .ok t) (ranks : t.Ranks) (c : Channel)
    (newline : Newline) : ∃ new, t.moved c newline = .ok new := by
  unfold moved
  split
  case isTrue => exact ⟨_, rfl⟩
  case isFalse => exact exists_upgraded h ranks c newline

-- A value that is moved to a channel, read again and moved to a higher channel, is moved there.
theorem proposed_after_stopover (h : parse text kind = .ok t) (single : t.value.IsSingle)
    (free : p.gates kind = false) (five : 5 ≤ c₁.major) (release : c₁.sdk.build = none)
    (below : c₁.IsBelow c₂) : ∃ stop t' new,
      t.proposed c₁ p newline = .ok stop ∧ parse stop kind = .ok t' ∧
      t'.proposed c₂ p newline = .ok new ∧ t.proposed c₂ p newline = .ok new := by
  have kinds := kind_of_parse h
  obtain ⟨new, direct⟩ := exists_moved h (ranks_of_isSingle single) c₂ newline
  obtain ⟨rfl, hv⟩ := parse_eq_ok h
  obtain ⟨stop, value', written, parsed, same⟩ :=
    moved_after_stopover hv single five release below newline
  rw [proposed_eq (kinds ▸ free), proposed_eq (kinds ▸ free)]
  have again : parse stop kind = .ok ⟨stop, value'⟩ := by
    rw [parse, parsed]
    rfl
  refine ⟨stop, _, new, written, again, ?_, direct⟩
  rw [proposed_eq (kind_of_parse again ▸ free)]
  exact same.trans direct

theorem proposed_after_stopover_preview : let text := "7.0.100 # pinned"
    ∃ t c₁, parse text .floatingChannel = .ok t ∧
      Channel.ofTexts "8.0" (some "8.0.100-rc.2") none none = .ok c₁ ∧ t.value.IsSingle ∧
      5 ≤ c₁.major ∧ c₁.sdk.build = none ∧ c₁.IsBelow (.ofNumbers 8 1) ∧
      ∃ stop t' new, t.proposed c₁ ⟨[]⟩ .lf = .ok stop ∧ parse stop .floatingChannel = .ok t' ∧
        t'.proposed (.ofNumbers 8 1) ⟨[]⟩ .lf = .ok new ∧
          t.proposed (.ofNumbers 8 1) ⟨[]⟩ .lf = .ok new := by
  intro text
  have h : parse text .floatingChannel = .ok ⟨text, .floating ⟨[
      .entry "" "7.0.100" " # pinned" ⟨.full 7 0 100 [], some " # pinned"⟩]⟩⟩ := by
    decide +kernel
  have channel : Channel.ofTexts "8.0" (some "8.0.100-rc.2") none none
      = .ok ⟨⟨8, 0, 100, [.alpha "rc" (by decide), .numeric 2], none⟩, .lts, .active⟩ := by
    decide +kernel
  have below : Channel.IsBelow
      ⟨⟨8, 0, 100, [.alpha "rc" (by decide), .numeric 2], none⟩, .lts, .active⟩ (.ofNumbers 8 1) := by
    decide
  exact ⟨_, _, h, channel, rfl, by decide, rfl, below,
    proposed_after_stopover h rfl rfl (by decide) rfl below⟩

end Token
end Repin
