import Repin.Proofs.Version.Image
/-!
# Images that pin a digest

Whatever the SDK of a channel is, the text of a reference for it is cut where the reference was cut. So
a reference is looked up under its own repository and its tag for the channel, and a new digest stands
behind just these.
-/
namespace Repin

variable {c : Channel} {d : Char}

-- The characters of versions are those of labels, the dot and the plus.
theorem RunVersion.not_mem_upgraded (h : isLabelChar d = false) (dot : d ≠ '.') (plus : d ≠ '+')
    (v : RunVersion) : d ∉ (v.upgraded c).toList := by
  have digit : d.isDigit = false := by
    cases hd : d.isDigit with
    | false => rfl
    | true => simp [isLabelChar_of_isDigit hd] at h
  have number (n : UInt64) : d ∉ (Text.writeNumber n).toList := Text.not_mem_writeNumber digit
  cases v
  case major => exact number _
  case minor => simp [upgraded, Channel.toList_render, number, dot]
  case patch => exact Semver.not_mem_render h dot plus

namespace ImageReference

variable {i new : ImageReference} {cs tag : List Char} {text : String}

-- The name of a reference for a channel, up to its digest.
def newName (i : ImageReference) (c : Channel) : List Char :=
  i.repository.toList ++ ':' :: i.written c i.tag

theorem toList_upgradedTag (i : ImageReference) (c : Channel) :
    (i.upgradedTag c).toList = i.written c i.tag := by
  simp [upgradedTag, written, String.toList_join, List.flatMap, Function.comp_def]

theorem tagText_of_isRead (h : IsRead cs tag i) : i.tagText.toList = tag := by
  rw [← h.parts.text_eq, tagText, String.toList_join]
  simp [List.flatMap, Function.comp_def]

-- None of the marks at which a reference is cut comes from a version.
theorem IsRead.not_mem_written (h : IsRead cs tag i) (ht : d ∉ tag) (label : isLabelChar d = false)
    (dot : d ≠ '.') (plus : d ≠ '+') : d ∉ i.written c i.tag := by
  intro hd
  obtain hd | ⟨v, hd⟩ := mem_written h.parts hd
  · exact ht hd
  · exact v.not_mem_upgraded label dot plus hd

theorem IsRead.at_not_mem_newName (h : IsRead cs tag i) : '@' ∉ i.newName c := by
  have outside := h.digest
  simp only [newName, List.mem_append, List.mem_cons, not_or] at outside ⊢
  refine ⟨outside.left, outside.right.left, ?_⟩
  exact h.not_mem_written outside.right.right (by decide) (by decide) (by decide)

theorem IsRead.splitOnce_upgraded {digest : String} (h : IsRead cs tag i)
    (pinned : i.digest = some digest) :
    Text.splitOnce '@' (i.upgraded c).toList = some (i.newName c, digest.toList) := by
  rw [toList_upgraded, pinned]
  exact Text.splitOnce_append h.at_not_mem_newName

theorem takeWhile_digestText {name : List Char} (h : '@' ∉ name) (digest : Option String) :
    (name ++ digestText digest).takeWhile (· ≠ '@') = name := by
  rw [Text.takeWhile_append_of_not_mem h]
  cases digest <;> simp [digestText]

theorem digestText_injective : Function.Injective digestText := by
  rintro (_ | s) (_ | t) h
  case some.some =>
    rw [digestText, digestText, List.cons_inj_right, String.toList_inj] at h
    rw [h]
  all_goals first | rfl | cases h

-- A reference is cut at its first `@`, and at the last colon before that.
theorem IsRead.eq_of_text {repository tag' : List Char} {digest : Option String} (h : IsRead cs tag i)
    (text : cs = repository ++ ':' :: tag' ++ digestText digest)
    (name : '@' ∉ repository ++ ':' :: tag') (colon : ':' ∉ tag') :
    i.repository.toList = repository ∧ tag = tag' ∧ i.digest = digest := by
  have cut := h.text
  rw [text] at cut
  have names := congrArg (List.takeWhile (· ≠ '@')) cut
  rw [takeWhile_digestText name, takeWhile_digestText h.digest] at names
  have tags := congrArg (afterLast ':') names
  rw [afterLast_append colon, afterLast_append h.colon] at tags
  subst tags
  rw [names, List.append_cancel_left_eq] at cut
  exact ⟨(List.append_cancel_right names).symm, rfl, (digestText_injective cut).symm⟩

theorem IsRead.colon_not_mem_written (h : IsRead cs tag i) : ':' ∉ i.written c i.tag :=
  h.not_mem_written h.colon (by decide) (by decide) (by decide)

-- Read again, the text for a channel is the repository with the tag for the channel.
theorem parse_upgraded (h : parse text = .ok i) (again : parse (i.upgraded c) = .ok new) :
    new.repository = i.repository ∧ new.tagText = i.upgradedTag c := by
  have ⟨tag, old⟩ := isRead_of_parse h
  have ⟨tag', read⟩ := isRead_of_parse again
  obtain ⟨repository, tags, _⟩ :=
    read.eq_of_text (toList_upgraded i c) old.at_not_mem_newName old.colon_not_mem_written
  refine ⟨String.toList_inj.mp repository, String.toList_inj.mp ?_⟩
  rw [tagText_of_isRead read, toList_upgradedTag, tags]

-- A new digest stands behind the repository and the tag for the channel.
theorem replaceDigest_upgraded (h : parse text = .ok i) (pinned : i.digest.isSome) (digest : String) :
    replaceDigest (i.upgraded c) digest
      = i.repository ++ ":" ++ i.upgradedTag c ++ "@" ++ digest := by
  have ⟨tag, old⟩ := isRead_of_parse h
  obtain ⟨was, pinned⟩ := Option.isSome_iff_exists.mp pinned
  apply String.toList_inj.mp
  simp [replaceDigest, old.splitOnce_upgraded pinned, newName, toList_upgradedTag]

end ImageReference
end Repin
