import Repin.Proofs.Version.Image
/-!
# Images moved to a channel

For a channel whose SDK has neither labels nor build metadata, the text for the channel is read as
the reference with its lower runs moved. Such a reference reaches the channel.
-/
namespace Repin

variable {c : Channel}

-- An SDK version that is three numbers and nothing else.
def Semver.IsPlain (v : Semver) : Prop :=
  v.prerelease = [] ∧ v.build = none

theorem Semver.IsPlain.toList_render {v : Semver} (h : v.IsPlain) : v.render.toList = v.coreText := by
  simp [Semver.toList_render, labelText, buildText, h.left, h.right]

namespace RunVersion

theorem isDigit_or_dot_of_mem_upgraded (plain : c.sdk.IsPlain) {v : RunVersion} {d : Char}
    (h : d ∈ (v.upgraded c).toList) : d.isDigit ∨ d = '.' := by
  cases v
  case major => exact .inl (Text.isDigit_of_mem_writeNumber h)
  case minor =>
    simp only [upgraded, Channel.toList_render, List.mem_append, List.mem_cons] at h
    obtain h | h | h := h
    · exact .inl (Text.isDigit_of_mem_writeNumber h)
    · exact .inr h
    · exact .inl (Text.isDigit_of_mem_writeNumber h)
  case patch =>
    rw [upgraded, plain.toList_render] at h
    exact Semver.isDigit_or_dot_of_mem_coreText h

theorem read?_upgraded (plain : c.sdk.IsPlain) (v : RunVersion) :
    read? (v.upgraded c).toList = some (v.moved c) := by
  cases v
  case major => exact read?_major _
  case minor => exact read?_minor c
  case patch =>
    rw [upgraded, plain.toList_render]
    exact read?_patch c.sdk

end RunVersion

namespace ImageReference

variable {i : ImageReference} {parts : List TagPart} {part : TagPart} {cs tag : List Char}
variable {digest : Option String} {d : Char}

-- A part after the move: a run below the channel has the numbers of the channel.
def movedPart (i : ImageReference) (c : Channel) (part : TagPart) : TagPart :=
  match part.version? with
  | some v => if i.moves v && !v.isAtLeast c then .run (v.upgraded c) (v.moved c) else part
  | none => part

def moved (i : ImageReference) (c : Channel) (digest : Option String) : ImageReference :=
  ⟨i.repository, i.tag.map (i.movedPart c), digest⟩

theorem movedPart_cases (i : ImageReference) (c : Channel) (part : TagPart) :
    (∃ v, part.version? = some v ∧ i.movedPart c part = .run (v.upgraded c) (v.moved c) ∧
      i.upgradedPart c part = v.upgraded c) ∨
    i.movedPart c part = part ∧ i.upgradedPart c part = part.text ∧
      ∀ v, part.version? = some v → i.moves v → v.isAtLeast c := by
  unfold movedPart upgradedPart
  cases hv : part.version? with
  | none => exact .inr ⟨rfl, rfl, by simp⟩
  | some v =>
    dsimp only
    split
    case isTrue => exact .inl ⟨v, rfl, rfl, rfl⟩
    case isFalse stays =>
      refine .inr ⟨rfl, rfl, fun w hw moves => ?_⟩
      cases hw
      simpa [moves] using stays

theorem ofPiece_upgraded (plain : c.sdk.IsPlain) (v : RunVersion) :
    TagPart.ofPiece (v.upgraded c).toList = [.run (v.upgraded c) (v.moved c)] := by
  have read := RunVersion.read?_upgraded plain v
  unfold TagPart.ofPiece
  split
  case h_1 hn =>
    rw [hn] at read
    cases read
  case h_2 hr _ =>
    cases read.symm.trans hr
    simp
  case h_3 hr _ => cases read.symm.trans hr

theorem isTag_moved (plain : c.sdk.IsPlain) (h : TagPart.IsTag parts cs) :
    TagPart.IsTag (parts.map (i.movedPart c)) (i.written c parts) := by
  induction h with
  | nil => exact .nil
  | separator hd _ ih =>
    rw [written_separator]
    exact .separator hd ih
  | @piece piece part parts cs hp inside cut tail ih =>
    have starts := startsCut_written (c := c) (i := i) tail cut
    rw [List.map_cons, written_cons]
    obtain ⟨v, _, run, text⟩ | ⟨stays, text, _⟩ := i.movedPart_cases c part
    · rw [run, text]
      refine .piece (ofPiece_upgraded plain v) (fun d hd => ?_) starts ih
      obtain hd | rfl := RunVersion.isDigit_or_dot_of_mem_upgraded plain hd
      · simp [TagPart.isSeparator_of_isDigit hd]
      · decide
    · have ⟨_, same, _⟩ := TagPart.of_ofPiece hp
      rw [stays, text, same]
      exact .piece hp inside starts ih

theorem mem_written_plain (plain : c.sdk.IsPlain) (h : TagPart.IsTag parts cs)
    (hd : d ∈ i.written c parts) : d ∈ cs ∨ d.isDigit ∨ d = '.' := by
  obtain hd | ⟨v, hd⟩ := mem_written h hd
  · exact .inl hd
  · exact .inr (RunVersion.isDigit_or_dot_of_mem_upgraded plain hd)

theorem isRead_moved (plain : c.sdk.IsPlain) (h : IsRead cs tag i) (ne : digest ≠ some "")
    (blank : ∀ s ∈ digest, ∀ d ∈ s.toList, Text.isBlank d = false) :
    IsRead (i.repository.toList ++ ':' :: i.written c i.tag ++ digestText digest)
      (i.written c i.tag) (i.moved c digest) := by
  have isTag : TagPart.IsTag (i.moved c digest).tag (i.written c i.tag) := isTag_moved plain h.parts
  have outside {d : Char} (ht : d ∉ tag) (digit : d.isDigit = false) (dot : d ≠ '.') :
      d ∉ i.written c i.tag := by
    intro hd
    have := mem_written_plain plain h.parts hd
    simp_all
  have old (d) (hd : d ∈ i.repository.toList ++ ':' :: tag) : Text.isBlank d = false := by
    apply h.blank d
    rw [h.text]
    exact List.mem_append_left _ hd
  exact {
    text := rfl
    parts := isTag
    tag_ne := by
      intro none
      have parts := isTag.read_eq
      rw [none] at parts
      have empty : i.tag = [] := by
        simpa [TagPart.read, TagPart.readFrom, TagPart.ofPiece, moved] using parts
      exact h.versions (by simp [ImageReference.versions, empty])
    colon := outside h.colon (by decide) (by decide)
    slash := outside h.slash (by decide) (by decide)
    digest := by
      have := h.digest
      simp only [List.mem_append, List.mem_cons, not_or] at this ⊢
      exact ⟨this.left, this.right.left, outside this.right.right (by decide) (by decide)⟩
    digest_ne := ne
    repository_ne := h.repository_ne
    ne_nil := by simp
    blank := by
      intro d hd
      simp only [List.mem_append, List.mem_cons] at hd old
      obtain (hd | rfl | hd) | hd := hd
      · exact old d (.inl hd)
      · decide
      · obtain hd | hd | rfl := mem_written_plain plain h.parts hd
        · exact old d (.inr (.inr hd))
        · exact Text.isBlank_of_isDigit hd
        · decide
      · cases digest with
        | none => cases hd
        | some s =>
          obtain rfl | hd := List.mem_cons.mp hd
          · decide
          · exact blank s rfl d hd
    versions := by
      intro none
      apply h.versions
      apply List.filterMap_eq_nil_iff.mpr
      intro part hp
      have gone : (i.movedPart c part).version? = Option.none :=
        List.filterMap_eq_nil_iff.mp none _ (List.mem_map_of_mem hp)
      obtain ⟨v, _, run, _⟩ | ⟨stays, _, _⟩ := i.movedPart_cases c part
      · simp [run, TagPart.version?] at gone
      · rwa [stays] at gone
  }

-- The runs that move have the numbers of the channel now, and the others had reached it.
theorem isAtLeast_moved (i : ImageReference) (c : Channel) (digest : Option String) :
    (i.moved c digest).isAtLeast c := by
  simp only [isAtLeast, List.all_eq_true, List.mem_filter, versions, List.mem_filterMap, moved,
    List.mem_map]
  rintro v ⟨⟨_, ⟨part, hp, rfl⟩, hv⟩, moves⟩
  obtain ⟨w, _, run, _⟩ | ⟨stays, _, reached⟩ := i.movedPart_cases c part
  · rw [run] at hv
    cases hv
    exact RunVersion.isAtLeast_moved c w
  · rw [stays] at hv
    exact reached v hv moves

variable {text : String}

theorem parse_moved (plain : c.sdk.IsPlain) (h : parse text = .ok i) (ne : digest ≠ some "")
    (blank : ∀ s ∈ digest, ∀ d ∈ s.toList, Text.isBlank d = false) :
    parse (String.ofList (i.repository.toList ++ ':' :: i.written c i.tag ++ digestText digest))
      = .ok (i.moved c digest) := by
  have ⟨tag, isRead⟩ := isRead_of_parse h
  have moved := read_of_isRead (isRead_moved plain isRead ne blank)
  simp only [parse, String.toList_ofList, moved]
  rfl

end ImageReference
end Repin
