import Repin.Proofs.Version.PortableList
/-!
# The layout of portable lists

The layout of a list is all of its text but the pinned items: the other items, the semicolons, the
blanks around the items and the pieces in which nothing else stands. A list in which nothing is pinned
keeps it. Any other list is written from its items alone, with a semicolon between each two, so it keeps
its layout only if it has no blanks and no empty pieces.

Main statement: `RuntimeIdentifierList.keepsLayout_iff`.
-/
namespace Repin

theorem eraseDups_of_nodup {α : Type} [BEq α] [LawfulBEq α] {as : List α} (h : as.Nodup) :
    as.eraseDups = as := by
  induction as with
  | nil => rfl
  | cons a as ih =>
    have ⟨new, rest⟩ := List.nodup_cons.mp h
    have others : as.filter (fun b => !b == a) = as := by
      rw [List.filter_eq_self]
      intro b hb
      simpa using ne_of_mem_of_not_mem hb new
    rw [List.eraseDups_cons, others, ih rest]

-- Around a trimmed text that is trimmed without them there are no blanks.
theorem Text.IsTrimmed.blanks_eq_nil {lead body trail : List Char}
    (h : IsTrimmed (lead ++ (body ++ trail))) (hb : IsTrimmed body) (hl : ∀ c ∈ lead, isBlank c)
    (ht : ∀ c ∈ trail, isBlank c) : lead = [] ∧ trail = [] := by
  have whole : body = lead ++ (body ++ trail) := (trim_append hl hb ht).symm.trans (trim_eq_self h)
  have length := congrArg List.length whole
  simp only [List.length_append] at length
  exact ⟨List.eq_nil_of_length_eq_zero (by omega), List.eq_nil_of_length_eq_zero (by omega)⟩

variable {cs : List Char}

namespace RuntimeIdentifier

variable {r : RuntimeIdentifier}

theorem IsRead.isTrimmed (h : IsRead cs r) : Text.IsTrimmed cs :=
  Text.isTrimmed_of_forall fun c hc => isBlank_of_isIdentifierChar (h.chars c hc)

theorem IsRead.isTrimmed_toPortable (h : IsRead cs r) : Text.IsTrimmed r.toPortable.toList :=
  Text.isTrimmed_of_forall fun _ hc =>
    isBlank_of_isIdentifierChar (isIdentifierChar_of_mem_toPortable h hc)

theorem IsRead.toPortable_eq (h : IsRead cs r) (hp : r.isPinned = false) :
    r.toPortable.toList = cs := by
  unfold isPinned at hp
  unfold toPortable
  split at hp
  case h_1 => cases hp
  case h_2 => simp [h.raw]
  case h_3 => simp [h.raw]

end RuntimeIdentifier

namespace RuntimeIdentifierList

open MonikerList (itemsOf)

variable {text : String} {l : RuntimeIdentifierList} {piece written item : List Char}

-- How a piece is written if it keeps its layout: as it was, or with its pinned item in portable form
-- between the blanks that were around it.
inductive KeptPiece : List Char → List Char → Prop
  | verbatim {piece : List Char} :
    (∀ r, RuntimeIdentifier.read (Text.trim piece) = .ok r → r.isPinned = false) →
      KeptPiece piece piece
  | pinned {lead item trail : List Char} {r : RuntimeIdentifier} :
    (∀ c ∈ lead, Text.isBlank c) → (∀ c ∈ trail, Text.isBlank c) →
      RuntimeIdentifier.read item = .ok r → r.isPinned →
        KeptPiece (lead ++ (item ++ trail)) (lead ++ (r.toPortable.toList ++ trail))

-- Nothing but pinned items is changed in a list: piece by piece between the semicolons.
def KeepsLayout (text written : List Char) : Prop :=
  List.Forall₂ KeptPiece (Text.splitAt ';' text) (Text.splitAt ';' written)

-- A text of items alone: no piece is empty or has blanks around its item.
def IsBare (text : List Char) : Prop :=
  ∀ piece ∈ Text.splitAt ';' text, piece ≠ [] ∧ Text.IsTrimmed piece

-- A piece that is written without blanks has kept its layout only if it had none.
theorem KeptPiece.bare (h : KeptPiece piece written) (ne : written ≠ [])
    (ht : Text.IsTrimmed written) : piece ≠ [] ∧ Text.IsTrimmed piece := by
  cases h with
  | verbatim => exact ⟨ne, ht⟩
  | pinned lead trail read =>
    have isRead := RuntimeIdentifier.isRead_of_read read
    obtain ⟨rfl, rfl⟩ := ht.blanks_eq_nil isRead.isTrimmed_toPortable lead trail
    simpa using ⟨isRead.ne_nil, isRead.isTrimmed⟩

theorem keptPiece_of_bare (h : Text.IsTrimmed piece) :
    KeptPiece piece (IdentifierItem.read piece).toPortable.toList := by
  have trim := Text.trim_eq_self h
  obtain ⟨r, read, identifier⟩ | ⟨none, other⟩ := IdentifierItem.read_cases piece
  case inr =>
    rw [other, IdentifierItem.toPortable, String.toList_ofList]
    exact .verbatim fun r hr => absurd (trim ▸ hr) (none r)
  case inl =>
    rw [identifier, IdentifierItem.toPortable]
    cases hp : r.isPinned with
    | true => simpa using @KeptPiece.pinned [] piece [] r (by simp) (by simp) read hp
    | false =>
      rw [(RuntimeIdentifier.isRead_of_read read).toPortable_eq hp]
      refine .verbatim fun r' hr => ?_
      rw [trim, read] at hr
      cases hr
      exact hp

theorem isBare_iff : IsBare cs ↔ itemsOf cs = Text.splitAt ';' cs := by
  constructor
  case mp =>
    intro h
    have trimmed : (Text.splitAt ';' cs).map Text.trim = Text.splitAt ';' cs :=
      (List.map_congr_left fun piece hp => Text.trim_eq_self (h piece hp).right).trans (List.map_id _)
    rw [itemsOf, trimmed, List.filter_eq_self]
    exact fun piece hp => decide_eq_true (h piece hp).left
  case mpr =>
    intro heq piece hp
    rw [← heq] at hp
    exact ⟨of_decide_eq_true (List.mem_filter.mp hp).right, MonikerList.isTrimmed_of_mem_itemsOf hp⟩

theorem KeepsLayout.isBare (h : KeepsLayout cs written) (hw : IsBare written) : IsBare cs := by
  intro piece hp
  have ⟨_, mem, kept⟩ := exists_of_forall₂_left h hp
  have ⟨ne, trimmed⟩ := hw _ mem
  exact kept.bare ne trimmed

-- The portable text of a list in which something is pinned has no layout of its own.
theorem isBare_toPortable (h : parse text = .ok l) (hl : l.isPortable = false) :
    IsBare l.toPortable.toList :=
  isBare_iff.mpr ((itemsOf_toPortable h hl).trans (splitAt_toPortable h hl).symm)

theorem splitAt_toPortable_of_nodup (h : parse text = .ok l) (hl : l.isPortable = false)
    (distinct : (l.items.map IdentifierItem.toPortable).Nodup) :
    Text.splitAt ';' l.toPortable.toList
      = (itemsOf text.toList).map fun item => (IdentifierItem.read item).toPortable.toList := by
  rw [splitAt_toPortable h hl, eraseDups_of_nodup distinct, (parse_eq_ok_iff.mp h).left,
    List.map_map, List.map_map]
  rfl

theorem keepsLayout_of_isPortable (h : parse text = .ok l) (hl : l.isPortable) :
    KeepsLayout text.toList l.toPortable.toList := by
  have same : l.toPortable = text := by
    rw [toPortable, if_pos hl, (parse_eq_ok_iff.mp h).left]
  rw [same, KeepsLayout, List.forall₂_same]
  refine fun piece hp => .verbatim fun r read => ?_
  have ne := (RuntimeIdentifier.isRead_of_read read).ne_nil
  have mem := (mem_items h).mpr ⟨piece, hp, ne, rfl⟩
  obtain ⟨r', again, identifier⟩ | ⟨none, _⟩ := IdentifierItem.read_cases (Text.trim piece)
  case inr => exact absurd read (none r)
  case inl =>
    obtain rfl := Except.ok.inj (read.symm.trans again)
    have found : r ∈ l.identifiers := List.mem_filterMap.mpr ⟨_, mem, by rw [identifier]; rfl⟩
    simpa using List.all_eq_true.mp hl r found

theorem keepsLayout_of_isBare (h : parse text = .ok l) (hl : l.isPortable = false)
    (distinct : (l.items.map IdentifierItem.toPortable).Nodup) (bare : IsBare text.toList) :
    KeepsLayout text.toList l.toPortable.toList := by
  rw [KeepsLayout, splitAt_toPortable_of_nodup h hl distinct, isBare_iff.mp bare,
    List.forall₂_map_right_iff, List.forall₂_same]
  exact fun piece hp => keptPiece_of_bare (bare piece hp).right

-- A list whose items stay apart in portable form keeps its layout exactly if nothing is pinned in it or
-- there is no layout but a semicolon between each two items. Otherwise the items are all that is kept.
theorem keepsLayout_iff (h : parse text = .ok l)
    (distinct : (l.items.map IdentifierItem.toPortable).Nodup) :
    (KeepsLayout text.toList l.toPortable.toList ↔ l.isPortable ∨ IsBare text.toList) ∧
      (l.isPortable = false → Text.splitAt ';' l.toPortable.toList
        = (itemsOf text.toList).map fun item => (IdentifierItem.read item).toPortable.toList) := by
  refine ⟨⟨fun kept => ?kept, fun cases => ?cases⟩, fun hl => splitAt_toPortable_of_nodup h hl distinct⟩
  case kept =>
    cases hl : l.isPortable with
    | true => exact .inl rfl
    | false => exact .inr (kept.isBare (isBare_toPortable h hl))
  case cases =>
    cases hl : l.isPortable with
    | true => exact keepsLayout_of_isPortable h hl
    | false => exact keepsLayout_of_isBare h hl distinct (cases.resolve_left (by simp [hl]))

theorem keepsLayout_iff_property : let text := "win10-x64;$(Rids);alpine.3.18-musl-arm64"
    ∃ l, parse text = .ok l ∧ (l.items.map IdentifierItem.toPortable).Nodup ∧
    (KeepsLayout text.toList l.toPortable.toList ↔ l.isPortable ∨ IsBare text.toList) ∧
      (l.isPortable = false → Text.splitAt ';' l.toPortable.toList
        = (itemsOf text.toList).map fun item => (IdentifierItem.read item).toPortable.toList) := by
  intro text
  have h : parse text = .ok ⟨text, (itemsOf text.toList).map IdentifierItem.read⟩ :=
    parse_eq_ok_iff.mpr ⟨rfl, by decide +kernel⟩
  have distinct : (((itemsOf text.toList).map IdentifierItem.read).map IdentifierItem.toPortable).Nodup := by
    decide +kernel
  exact ⟨_, h, distinct, keepsLayout_iff h distinct⟩

-- The line break and the blanks behind the semicolon are gone, and so is the one at the end.
theorem not_keepsLayout_lines : let text := "win10-x64;\n  linux-arm64;"
    ∃ l, parse text = .ok l ∧ (l.items.map IdentifierItem.toPortable).Nodup ∧
      l.toPortable = "win-x64;linux-arm64" ∧ ¬ KeepsLayout text.toList l.toPortable.toList := by
  intro text
  have h : parse text = .ok ⟨text, (itemsOf text.toList).map IdentifierItem.read⟩ :=
    parse_eq_ok_iff.mpr ⟨rfl, by decide +kernel⟩
  have written : toPortable ⟨text, (itemsOf text.toList).map IdentifierItem.read⟩
      = "win-x64;linux-arm64" := by decide +kernel
  refine ⟨_, h, by decide +kernel, written, fun kept => ?_⟩
  have pieces := kept.length_eq
  rw [written] at pieces
  exact absurd pieces (by decide)

end RuntimeIdentifierList
end Repin
