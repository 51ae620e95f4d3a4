import Mathlib.Data.List.Forall2
import Repin.Proofs.Dockerfile.Line
import Repin.Proofs.Locate.Change
import Repin.Proofs.Patch.Splice
import Repin.Proofs.Span
import Repin.Proofs.Text.Lines
/-!
# Dockerfiles with other images

Each line has one site at most, and an edit of it ends before the line does. So the lines of a
Dockerfile are found again when images are replaced, and so are the sites.
-/
namespace Repin.Dockerfile

variable {offset : Nat} {line : List Char} {ls : List (List Char)} {s : Site}
variable {change : Site → Option Change}

-- The site of a line with its terminator.
def site? (offset : Nat) (line : List Char) : Option Site :=
  (FromLine.ofWords? (words offset (Text.stripTerminator line))).map FromLine.site

def sitesFrom (offset : Nat) (ls : List (List Char)) : List Site :=
  ((Text.linesFrom offset ls).filterMap fun (offset, line) =>
    FromLine.ofWords? (words offset line)).map FromLine.site

theorem sitesFrom_cons : sitesFrom offset (line :: ls)
    = (site? offset line).toList ++ sitesFrom (offset + Text.byteLength line) ls := by
  unfold sitesFrom site?
  rw [Text.linesFrom]
  cases hl : FromLine.ofWords? (words offset (Text.stripTerminator line)) <;> simp [hl]

theorem sites_eq (text : String) : sites text = sitesFrom 0 (Text.terminatedLines text.toList) := rfl

-- An image that can take the place of another one.
structure IsImage (image : List Char) : Prop where
  isWord : IsWord image
  flag : "--".toList.isPrefixOf image = false

-- The site of an image.
def imageSite (start : Nat) (stage : Option String) (image : List Char) : Site :=
  FromLine.site ⟨⟨start, image⟩, stage⟩

theorem exists_imageSite (h : site? offset line = some s) : ∃ front back stage image,
    line = front ++ (image ++ back) ∧ IsImage image ∧
      s = imageSite (offset + Text.byteLength front) stage image ∧
      ∀ other, IsImage other → ∀ offset', site? offset' (front ++ (other ++ back))
        = some (imageSite (offset' + Text.byteLength front) stage other) := by
  obtain ⟨l, hl, rfl⟩ := Option.map_eq_some_iff.mp h
  have ⟨front, behind, cut, start, isWord, flag, replaced⟩ := FromLine.exists_replaced hl
  obtain ⟨terminator, whole⟩ := Text.stripTerminator_isPrefix line
  -- the terminator lies behind whatever image stands there
  have strips {image : List Char} (hw : IsWord image) (cs : List Char) :
      Text.stripTerminator (front ++ (image ++ cs)) = front ++ (image ++ Text.stripTerminator cs) := by
    rw [← List.append_assoc, Text.stripTerminator_append, List.append_assoc]
    intro c hc
    rw [List.getLast?_append_of_ne_nil _ hw.left] at hc
    exact hw.right c (List.mem_of_getLast? hc)
  rw [cut, List.append_assoc, List.append_assoc] at whole
  have same : Text.stripTerminator (behind ++ terminator) = behind := by
    have := cut
    rw [← whole, strips isWord] at this
    simpa using this
  refine ⟨front, behind ++ terminator, l.stage, l.image.text, whole.symm, ⟨isWord, flag⟩, ?_, ?_⟩
  case _ => rw [imageSite, ← start]
  case _ =>
    intro image hi offset'
    rw [site?, strips hi.isWord, same, replaced image hi.isWord hi.flag]
    rfl

theorem site?_eq_none (h : site? offset line = none) (offset' : Nat) : site? offset' line = none := by
  unfold site? at *
  rw [FromLine.ofWords?_words_eq_none (Option.map_eq_none_iff.mp h)]
  rfl

-- The change gives the site another image.
structure Replaces (c : Change) (s : Site) : Prop where
  offset : c.offset = 0
  part : c.part = s.value.toList
  text : IsImage c.text.toList

-- A site whose image may have changed: its stage stays.
structure Moved (change : Site → Option Change) (s s' : Site) : Prop extends s.Moved change s' where
  path : s'.path = s.path

-- An image stands in place of the other one.
def Exchanged (line out : List Char) : Prop :=
  ∃ front back old new, line = front ++ (old ++ back) ∧ out = front ++ (new ++ back) ∧
    IsImage old ∧ IsImage new

theorem exists_line {out : List Char}
    (replaces : ∀ s ∈ site? offset line, ∀ c, change s = some c → Replaces c s)
    (hs : Splice offset line (Change.editsOf change (site? offset line).toList) out) :
    (out = line ∨ Exchanged line out) ∧ ∀ offset', List.Forall₂ (Moved change)
      (site? offset line).toList (site? offset' out).toList := by
  cases hl : site? offset line with
  | none =>
    rw [hl] at hs
    cases hs
    exact ⟨.inl rfl, fun offset' => by simp [site?_eq_none hl offset']⟩
  | some s =>
    rw [hl] at hs replaces
    have ⟨front, back, stage, image, cut, isImage, site, read⟩ := exists_imageSite hl
    have value : s.value.toList = image := by simp [site, imageSite, FromLine.site]
    cases hc : change s with
    | none =>
      have none : Change.editsOf change (some s).toList = [] := by simp [Change.editsOf, hc]
      rw [none] at hs
      cases hs
      refine ⟨.inl rfl, fun offset' => ?_⟩
      rw [cut, read image isImage offset']
      refine .cons ⟨⟨by simp [site]; rfl, by simp [site]; rfl, ?_⟩, by simp [site]; rfl⟩ .nil
      simp only [hc, Change.Turned]
      exact String.toList_inj.mp (by simp [value, imageSite, FromLine.site])
    | some c =>
      have ⟨place, part, text⟩ := replaces s rfl c hc
      have one : Change.editsOf change (some s).toList = [c.editIn s.span] := by
        simp [Change.editsOf, hc]
      rw [one, cut] at hs
      have out := hs.eq_of_singleton
        (by simp [Change.editIn, Span.ofLength, place, site, imageSite, FromLine.site])
        (by simp [Change.editIn, Span.ofLength, part, value])
      subst out
      refine ⟨.inr ⟨front, back, image, _, cut, rfl, isImage, text⟩, fun offset' => ?_⟩
      simp only [Change.editIn]
      rw [read _ text offset']
      refine .cons ⟨⟨by simp [site]; rfl, by simp [site]; rfl, ?_⟩, by simp [site]; rfl⟩ .nil
      simp only [hc, Change.Turned]
      exact ⟨[], [], by simp [part], by simp [place], by simp [imageSite, FromLine.site]⟩

section Exchanged

variable {out : List Char}

theorem IsImage.newline_not_mem {image : List Char} (h : IsImage image) : '\n' ∉ image := by
  intro hm
  have blank := h.isWord.right _ hm
  simp [Text.isBlank] at blank

theorem Exchanged.newline_not_mem (h : Exchanged line out) (inside : '\n' ∉ line) : '\n' ∉ out := by
  obtain ⟨front, back, old, new, rfl, rfl, _, image⟩ := h
  simp only [List.mem_append, not_or] at inside ⊢
  exact ⟨inside.left, image.newline_not_mem, inside.right.right⟩

theorem Exchanged.ne_nil (h : Exchanged line out) : out ≠ [] := by
  obtain ⟨front, back, old, new, rfl, rfl, _, image⟩ := h
  simp [image.isWord.left]

-- The line feed at the end of a line belongs to no image.
theorem IsImage.exists_line_feed {front image back : List Char} (h : IsImage image)
    (cut : line ++ ['\n'] = front ++ (image ++ back)) :
    ∃ behind, back = behind ++ ['\n'] ∧ line = front ++ (image ++ behind) := by
  obtain rfl | ⟨behind, last, rfl⟩ := List.eq_nil_or_concat back
  case inl =>
    rw [List.append_nil] at cut
    have ends := congrArg List.getLast? cut
    rw [List.getLast?_concat, List.getLast?_append_of_ne_nil _ h.isWord.left] at ends
    exact absurd (List.mem_of_getLast? ends.symm) h.newline_not_mem
  case inr =>
    have whole : line ++ ['\n'] = (front ++ (image ++ behind)) ++ [last] := by simp [cut]
    have ⟨heq, hl⟩ := List.append_inj' whole rfl
    obtain rfl := (List.cons.inj hl).left
    exact ⟨behind, by simp, heq⟩

theorem Exchanged.exists_line_feed (h : Exchanged (line ++ ['\n']) out) (inside : '\n' ∉ line) :
    ∃ line', out = line' ++ ['\n'] ∧ '\n' ∉ line' := by
  obtain ⟨front, back, old, new, cut, rfl, image, image'⟩ := h
  have ⟨behind, feed, heq⟩ := image.exists_line_feed cut
  refine ⟨front ++ (new ++ behind), by simp [feed], ?_⟩
  rw [heq] at inside
  simp only [List.mem_append, not_or] at inside ⊢
  exact ⟨inside.left, image'.newline_not_mem, inside.right.right⟩

end Exchanged

-- An image lies in its line, in front of the line feed.
theorem span_of_site? (h : site? offset line = some s) :
    offset ≤ s.span.start ∧ s.span.stop = s.span.start + Text.byteLength s.value.toList ∧
      s.span.stop ≤ offset + Text.byteLength line := by
  have ⟨front, back, stage, image, cut, _, site, _⟩ := exists_imageSite h
  subst cut site
  simp only [imageSite, FromLine.site, Span.ofLength, Text.byteLength_append, String.toList_ofList,
    true_and]
  omega

theorem le_of_mem_sitesFrom (h : s ∈ sitesFrom offset ls) : offset ≤ s.span.start := by
  induction ls generalizing offset with
  | nil => cases h
  | cons line ls ih =>
    rw [sitesFrom_cons, List.mem_append, Option.mem_toList] at h
    cases h with
    | inl h => exact (span_of_site? h).left
    | inr h =>
      have := ih h
      omega

theorem le_start_of_mem_editsOf {e : EditSpan} (h : e ∈ Change.editsOf change (sitesFrom offset ls)) :
    offset ≤ e.span.start := by
  obtain ⟨s, hm, he⟩ := List.mem_filterMap.mp h
  obtain ⟨c, _, rfl⟩ := Option.map_eq_some_iff.mp he
  exact Nat.le_trans (le_of_mem_sitesFrom hm) (Nat.le_add_right _ _)

theorem stop_le_of_mem_editsOf (replaces : ∀ s ∈ site? offset line, ∀ c, change s = some c → Replaces c s) :
    ∀ e ∈ Change.editsOf change (site? offset line).toList,
      e.span.stop ≤ offset + Text.byteLength line := by
  intro e he
  obtain ⟨s, hm, he⟩ := List.mem_filterMap.mp he
  obtain ⟨c, hc, rfl⟩ := Option.map_eq_some_iff.mp he
  have hs := Option.mem_toList.mp hm
  obtain ⟨place, part, _⟩ := replaces s hs c hc
  obtain ⟨_, length, last⟩ := span_of_site? hs
  simp only [Change.editIn, Span.ofLength, place, part]
  omega

theorem exists_lines {cs out : List Char} (h : Text.Lines cs ls)
    (replaces : ∀ s ∈ sitesFrom offset ls, ∀ c, change s = some c → Replaces c s)
    (hs : Splice offset cs (Change.editsOf change (sitesFrom offset ls)) out) (offset' : Nat) :
    ∃ ls', Text.Lines out ls' ∧
      List.Forall₂ (Moved change) (sitesFrom offset ls) (sitesFrom offset' ls') := by
  induction h generalizing offset offset' out with
  | nil =>
    obtain rfl := hs.eq_of_nil
    exact ⟨[], .nil, .nil⟩
  | @last line ne inside =>
    have one : sitesFrom offset [line] = (site? offset line).toList := by
      rw [sitesFrom_cons]
      simp [sitesFrom, Text.linesFrom]
    rw [one] at hs replaces ⊢
    obtain ⟨exchanged, moved⟩ := exists_line (fun s hs => replaces s (Option.mem_toList.mpr hs)) hs
    refine ⟨[out], ?_, ?_⟩
    case _ =>
      obtain rfl | exchanged := exchanged
      · exact .last ne inside
      · exact .last exchanged.ne_nil (exchanged.newline_not_mem inside)
    case _ =>
      rw [sitesFrom_cons]
      simpa [sitesFrom, Text.linesFrom] using moved offset'
  | @cons line rest ls inside tail ih =>
    rw [sitesFrom_cons] at hs replaces ⊢
    have here : ∀ s ∈ site? offset (line ++ ['\n']), ∀ c, change s = some c → Replaces c s :=
      fun s hs => replaces s (List.mem_append_left _ (Option.mem_toList.mpr hs))
    have apart : Splice offset ((line ++ ['\n']) ++ rest)
        (Change.editsOf change (site? offset (line ++ ['\n'])).toList ++
          Change.editsOf change (sitesFrom (offset + Text.byteLength (line ++ ['\n'])) ls)) out := by
      simpa [Change.editsOf] using hs
    obtain ⟨front, back, whole, hfront, hback⟩ := apart.split (stop_le_of_mem_editsOf here)
      fun e he => le_start_of_mem_editsOf he
    obtain ⟨exchanged, moved⟩ := exists_line here hfront
    obtain ⟨line', feed, inside'⟩ : ∃ line', front = line' ++ ['\n'] ∧ '\n' ∉ line' := by
      obtain rfl | exchanged := exchanged
      · exact ⟨line, rfl, inside⟩
      · exact exchanged.exists_line_feed inside
    subst feed
    obtain ⟨ls', lines, behind⟩ := ih (fun s hs => replaces s (List.mem_append_right _ hs)) hback
      (offset' + Text.byteLength (line' ++ ['\n']))
    have lines := Text.Lines.cons inside' lines
    refine ⟨_, by simpa [whole] using lines, ?_⟩
    rw [sitesFrom_cons]
    exact List.rel_append (moved offset') behind

-- The image of a line is the text under its span.
theorem slice_of_site? (h : site? offset line = some s) :
    Text.slice (s.span.start - offset) (s.span.stop - offset) line = some s.value.toList := by
  have ⟨front, back, stage, image, cut, _, site, _⟩ := exists_imageSite h
  subst cut site
  apply Text.slice_eq_some_iff.mpr
  refine ⟨front, back, by simp [imageSite, FromLine.site], ?_, ?_⟩ <;>
    simp only [imageSite, FromLine.site, Span.ofLength, String.toList_ofList] <;> omega

theorem isImage_of_mem_sitesFrom (h : s ∈ sitesFrom offset ls) : IsImage s.value.toList := by
  induction ls generalizing offset with
  | nil => cases h
  | cons line ls ih =>
    rw [sitesFrom_cons, List.mem_append, Option.mem_toList] at h
    cases h with
    | inl h =>
      have ⟨_, _, _, image, _, isImage, site, _⟩ := exists_imageSite h
      simpa [site, imageSite, FromLine.site] using isImage
    | inr h => exact ih h

theorem slice_of_mem_sitesFrom {cs : List Char} (h : Text.Lines cs ls) (hs : s ∈ sitesFrom offset ls) :
    Text.slice (s.span.start - offset) (s.span.stop - offset) cs = some s.value.toList := by
  induction h generalizing offset with
  | nil => cases hs
  | @last line ne inside =>
    rw [sitesFrom_cons, List.mem_append, Option.mem_toList] at hs
    cases hs with
    | inl hs => exact slice_of_site? hs
    | inr hs => cases hs
  | @cons line rest ls inside tail ih =>
    rw [sitesFrom_cons, List.mem_append, Option.mem_toList] at hs
    have whole : line ++ '\n' :: rest = (line ++ ['\n']) ++ rest := by simp
    rw [whole]
    cases hs with
    | inl hs => exact Text.slice_append_right (slice_of_site? hs) rest
    | inr hs =>
      have slice := Text.slice_append (line ++ ['\n']) (ih hs)
      have start := le_of_mem_sitesFrom hs
      have order := s.span.start_le_stop
      rwa [show Text.byteLength (line ++ ['\n']) + (s.span.start - (offset + Text.byteLength (line ++ ['\n'])))
          = s.span.start - offset by omega,
        show Text.byteLength (line ++ ['\n']) + (s.span.stop - (offset + Text.byteLength (line ++ ['\n'])))
          = s.span.stop - offset by omega] at slice

-- Between two images a line feed lies at least.
theorem separated_sitesFrom {cs : List Char} (h : Text.Lines cs ls) :
    (sitesFrom offset ls).Pairwise fun s t => s.span.Precedes t.span := by
  induction h generalizing offset with
  | nil => exact .nil
  | @last line ne inside =>
    rw [sitesFrom_cons]
    cases site? offset line <;> simp [sitesFrom, Text.linesFrom]
  | @cons line rest ls inside tail ih =>
    rw [sitesFrom_cons, List.pairwise_append]
    refine ⟨?_, ih, fun s hs t ht => ?_⟩
    case _ => cases site? offset (line ++ ['\n']) <;> simp
    case _ =>
      have ⟨front, back, stage, image, cut, isImage, site, _⟩ := exists_imageSite (Option.mem_toList.mp hs)
      have ⟨behind, _, heq⟩ := isImage.exists_line_feed cut
      have start := le_of_mem_sitesFrom ht
      have pos := ('\n' : Char).utf8Size_pos
      subst site heq
      simp only [Span.Precedes, imageSite, FromLine.site, Span.ofLength, Text.byteLength_append,
        Text.byteLength_cons, Text.byteLength_nil] at start ⊢
      omega

-- Other images leave a Dockerfile with the same sites, changed.
theorem exists_sites_of_splice {text out : String}
    (replaces : ∀ s ∈ sites text, ∀ c, change s = some c → Replaces c s)
    (hs : Splice 0 text.toList (Change.editsOf change (sites text)) out.toList) :
    List.Forall₂ (Moved change) (sites text) (sites out) := by
  have ⟨ls', lines, moved⟩ := exists_lines (Text.lines_terminatedLines text.toList) replaces hs 0
  rw [sites_eq out, lines.terminatedLines_eq]
  exact moved

theorem shows_of_mem_sites {text : String} (h : s ∈ sites text) : s.Shows text.toList := by
  intro _
  simpa using slice_of_mem_sitesFrom (Text.lines_terminatedLines text.toList) h

theorem separated_sites (text : String) : (sites text).Pairwise fun s t => s.span.Precedes t.span :=
  separated_sitesFrom (Text.lines_terminatedLines text.toList)

end Repin.Dockerfile
