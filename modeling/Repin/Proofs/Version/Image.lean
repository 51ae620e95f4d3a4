import Repin.Proofs.Except
import Repin.Proofs.Text.Blank
import Repin.Proofs.Version.Numeric
import Repin.Proofs.Version.Semver
import Repin.Version.Image
/-!
# Images and their tags

A tag is cut at its separators and nowhere else, so a run that is replaced by text without separators
is found again in its place. The text of a channel reaches the channel, which makes the tag for a
channel another text than a tag below it.
-/
namespace Repin

variable {c : Channel} {cs : List Char} {d : Char}

namespace RunVersion

variable {v : RunVersion}

theorem dot_not_mem (n : UInt64) : '.' ∉ (Text.writeNumber n).toList :=
  Text.not_mem_writeNumber (by decide)

theorem read?_major (n : UInt64) : read? (Text.writeNumber n).toList = some (major n) := by
  simp [read?, Text.splitAt_eq_singleton (dot_not_mem n), Text.readNumber_writeNumber, ofNumbers?]

theorem read?_minor (c : Channel) : read? c.render.toList = some (minor c.major c.minor) := by
  simp [read?, Channel.toList_render, Text.splitAt_append_separator (dot_not_mem _),
    Text.splitAt_eq_singleton (dot_not_mem _), Text.readNumber_writeNumber, ofNumbers?]

theorem read?_patch (s : Semver) : read? s.coreText = some (patch s.major s.minor s.patch) := by
  simp [read?, Semver.splitAt_coreText, Text.readNumber_writeNumber, ofNumbers?]

-- Two leading numbers of a channel are enough to reach it.
theorem isAtLeast_of_read? {rest : List Char} (h : read? ((Text.writeNumber c.major).toList ++
    '.' :: ((Text.writeNumber c.minor).toList ++ '.' :: rest)) = some v) : v.isAtLeast c := by
  obtain ⟨numbers, hn, h⟩ := Option.bind_eq_some_iff.mp h
  simp only [Text.splitAt_append_separator (dot_not_mem _), List.mapM_cons,
    Text.readNumber_writeNumber, Option.bind_eq_bind, Option.bind_some, Option.bind_eq_some_iff,
    Option.pure_def, Option.some.injEq] at hn
  obtain ⟨-, ⟨ns, hs, rfl⟩, rfl⟩ := hn
  cases ns with
  | nil => cases h; exact c.isReachedBy_self
  | cons n ns =>
    cases ns with
    | nil => cases h; exact c.isReachedBy_self
    | cons => cases h

end RunVersion

namespace TagPart

-- A text is empty or starts with a separator.
def StartsCut (cs : List Char) : Prop :=
  ∀ d, cs.head? = some d → isSeparator d

-- The parts of a tag: between any two runs or other texts stands a separator.
inductive IsTag : List TagPart → List Char → Prop where
  | nil : IsTag [] []
  | separator {d : Char} {parts : List TagPart} {cs : List Char} :
    isSeparator d → IsTag parts cs → IsTag (separator d :: parts) (d :: cs)
  | piece {piece : List Char} {part : TagPart} {parts : List TagPart} {cs : List Char} :
    ofPiece piece = [part] → (∀ d ∈ piece, ¬ isSeparator d) → StartsCut cs → IsTag parts cs →
      IsTag (part :: parts) (piece ++ cs)

variable {piece rest : List Char} {part : TagPart} {parts : List TagPart}

theorem ofPiece_eq (ne : piece ≠ []) : ∃ part, ofPiece piece = [part] ∧ part.text.toList = piece ∧
    part.version? = RunVersion.read? piece := by
  unfold ofPiece
  split
  case h_1 => contradiction
  case h_2 version h => exact ⟨_, rfl, by simp [text], h.symm⟩
  case h_3 h => exact ⟨_, rfl, by simp [text], h.symm⟩

theorem readFrom_append (h : ∀ d ∈ piece, ¬ isSeparator d) (passed rest : List Char) :
    readFrom passed (piece ++ rest) = readFrom (piece.reverse ++ passed) rest := by
  induction piece generalizing passed with
  | nil => rfl
  | cons d ds ih =>
    have hd := h d List.mem_cons_self
    have tail := ih (fun e he => h e (List.mem_cons_of_mem _ he)) (d :: passed)
    simp [readFrom, hd, tail]

theorem read_append (h : ∀ d ∈ piece, ¬ isSeparator d) (hr : StartsCut rest) :
    read (piece ++ rest) = ofPiece piece ++ read rest := by
  rw [read, readFrom_append h]
  cases rest with
  | nil => simp [read, readFrom, ofPiece]
  | cons d ds => simp [read, readFrom, hr d rfl, ofPiece]

theorem read_separator (h : isSeparator d) : read (d :: cs) = separator d :: read cs := by
  simp [read, readFrom, h, ofPiece]

-- Every text is cut into pieces in the one way `IsTag` describes.
theorem isTag_read (cs : List Char) : IsTag (read cs) cs := by
  induction hn : cs.length using Nat.strongRecOn generalizing cs with
  | _ n ih =>
    cases cs with
    | nil => exact .nil
    | cons d ds =>
      by_cases hd : isSeparator d
      case pos =>
        rw [read_separator hd]
        exact .separator hd (ih ds.length (by simp [← hn]) ds rfl)
      case neg =>
        have parts := List.takeWhile_append_dropWhile (p := fun e => !isSeparator e) (l := d :: ds)
        have inside : ∀ e ∈ (d :: ds).takeWhile fun e => !isSeparator e, ¬ isSeparator e := by
          intro e he
          simpa using List.all_eq_true.mp List.all_takeWhile e he
        have cut : StartsCut ((d :: ds).dropWhile fun e => !isSeparator e) := by
          intro e he
          have := List.head?_dropWhile_not (fun e => !isSeparator e) (d :: ds)
          simpa [he] using this
        have ne : (d :: ds).takeWhile (fun e => !isSeparator e) ≠ [] := by simp [hd]
        have ⟨part, hp, _, _⟩ := ofPiece_eq ne
        have shorter := congrArg List.length parts
        have positive := List.length_pos_of_ne_nil ne
        simp only [List.length_append] at shorter
        have tail := ih _ (by omega) ((d :: ds).dropWhile fun e => !isSeparator e) rfl
        have whole := IsTag.piece hp inside cut tail
        rw [← List.singleton_append, ← hp, ← read_append inside cut, parts] at whole
        exact whole

theorem of_ofPiece (h : ofPiece piece = [part]) : piece ≠ [] ∧ part.text.toList = piece ∧
    part.version? = RunVersion.read? piece := by
  have ne : piece ≠ [] := by
    rintro rfl
    simp [ofPiece] at h
  have ⟨part', hp, ht, hv⟩ := ofPiece_eq ne
  rw [hp, List.singleton_inj] at h
  exact ⟨ne, h ▸ ht, h ▸ hv⟩

theorem IsTag.text_eq (h : IsTag parts cs) : (parts.map fun p => p.text.toList).flatten = cs := by
  induction h with
  | nil => rfl
  | separator _ _ ih => simpa [text] using ih
  | piece hp _ _ _ ih => simp [(of_ofPiece hp).right.left, ih]

theorem IsTag.read_eq (h : IsTag parts cs) : read cs = parts := by
  induction h with
  | nil => simp [read, readFrom, ofPiece]
  | separator hd _ ih => rw [read_separator hd, ih]
  | piece hp inside cut _ ih => rw [read_append inside cut, hp, ih, List.singleton_append]

-- Up to the first cut two tags agree when they are the same text.
theorem takeWhile_of_startsCut (h : ∀ d ∈ piece, ¬ isSeparator d) (hr : StartsCut rest) :
    (piece ++ rest).takeWhile (fun d => !isSeparator d) = piece := by
  rw [List.takeWhile_append_of_pos (by simpa using h)]
  cases rest with
  | nil => simp
  | cons d ds => simp [hr d rfl]

theorem isSeparator_of_isDigit (h : d.isDigit) : isSeparator d = false := by
  cases hs : isSeparator d
  case false => rfl
  case true =>
    simp only [isSeparator, Bool.or_eq_true, beq_iff_eq] at hs
    obtain rfl | rfl := hs <;> simp at h

end TagPart

namespace RunVersion

variable {v w : RunVersion} {piece rest rest' : List Char}

-- The numbers of a channel at the precision of a run.
def moved (c : Channel) : RunVersion → RunVersion
  | major _ => major c.major
  | minor _ _ => minor c.major c.minor
  | patch _ _ _ => patch c.major c.minor c.sdk.patch

theorem isAtLeast_moved (c : Channel) (v : RunVersion) : (v.moved c).isAtLeast c := by
  cases v
  case major => simp [moved, isAtLeast]
  all_goals exact c.isReachedBy_self

theorem isSeparator_writeNumber (n : UInt64) :
    ∀ d ∈ (Text.writeNumber n).toList, ¬ TagPart.isSeparator d := by
  intro d hd
  simp [TagPart.isSeparator_of_isDigit (Text.isDigit_of_mem_writeNumber hd)]

theorem isSeparator_render (c : Channel) : ∀ d ∈ c.render.toList, ¬ TagPart.isSeparator d := by
  intro d hd
  simp only [Channel.toList_render, List.mem_append, List.mem_cons] at hd
  obtain hd | rfl | hd := hd
  · exact isSeparator_writeNumber _ d hd
  · decide
  · exact isSeparator_writeNumber _ d hd

theorem isSeparator_coreText (s : Semver) : ∀ d ∈ s.coreText, ¬ TagPart.isSeparator d := by
  intro d hd
  cases Semver.isDigit_or_dot_of_mem_coreText hd
  case inl hd => simp [TagPart.isSeparator_of_isDigit hd]
  case inr hd => simp [hd, TagPart.isSeparator]

-- A run that is the text of a channel, up to the first cut, reaches the channel.
theorem isAtLeast_of_append (hv : read? piece = some v) (hp : ∀ d ∈ piece, ¬ TagPart.isSeparator d)
    (hr : TagPart.StartsCut rest) (hr' : TagPart.StartsCut rest')
    (h : piece ++ rest = (w.upgraded c).toList ++ rest') : v.isAtLeast c := by
  have front := TagPart.takeWhile_of_startsCut hp hr
  cases w
  case major m =>
    rw [h, upgraded, TagPart.takeWhile_of_startsCut (isSeparator_writeNumber _) hr'] at front
    rw [← front, read?_major] at hv
    cases hv
    exact isAtLeast_moved c (.major m)
  case minor m n =>
    rw [h, upgraded, TagPart.takeWhile_of_startsCut (isSeparator_render c) hr'] at front
    rw [← front, read?_minor] at hv
    cases hv
    exact isAtLeast_moved c (.minor m n)
  case patch m n p =>
    -- the labels and the build of the SDK may belong to the run
    have core : ∀ d ∈ c.sdk.coreText, !TagPart.isSeparator d := by
      simpa using isSeparator_coreText c.sdk
    rw [h, upgraded, Semver.toList_render, List.append_assoc, List.append_assoc,
      List.takeWhile_append_of_pos core] at front
    rw [← front, Semver.coreText] at hv
    simp only [List.append_assoc, List.cons_append] at hv
    exact isAtLeast_of_read? hv

end RunVersion

namespace ImageReference

variable {i : ImageReference} {parts : List TagPart} {part : TagPart} {text : String}

-- A run that a channel changes.
def isBelow (i : ImageReference) (c : Channel) (part : TagPart) : Bool :=
  part.version?.any fun v => i.moves v && !v.isAtLeast c

-- The tag for a channel, part by part.
def written (i : ImageReference) (c : Channel) (parts : List TagPart) : List Char :=
  (parts.map fun part => (i.upgradedPart c part).toList).flatten

theorem upgradedPart_of_not_isBelow (h : i.isBelow c part = false) :
    i.upgradedPart c part = part.text := by
  unfold upgradedPart
  cases hv : part.version?
  case none => rfl
  case some v =>
    have stays : (i.moves v && !v.isAtLeast c) = false := by simpa [isBelow, hv] using h
    dsimp only
    rw [stays]
    rfl

theorem upgradedPart_of_isBelow (h : i.isBelow c part) :
    ∃ v, part.version? = some v ∧ v.isAtLeast c = false ∧ i.moves v ∧
      i.upgradedPart c part = v.upgraded c := by
  unfold upgradedPart
  cases hv : part.version?
  case none => simp [isBelow, hv] at h
  case some v =>
    have moves : (i.moves v && !v.isAtLeast c) = true := by simpa [isBelow, hv] using h
    refine ⟨v, rfl, ?_, ?_, ?_⟩
    · simpa using (Bool.and_eq_true_iff.mp moves).right
    · exact (Bool.and_eq_true_iff.mp moves).left
    · dsimp only
      rw [moves]
      rfl

theorem exists_isBelow (h : i.isAtLeast c = false) : ∃ part ∈ i.tag, i.isBelow c part := by
  simp only [isAtLeast, versions, List.all_eq_false, List.mem_filter, List.mem_filterMap] at h
  obtain ⟨v, ⟨⟨part, hm, hv⟩, moves⟩, below⟩ := h
  exact ⟨part, hm, by simp [isBelow, hv, moves, below]⟩

@[simp] theorem written_nil : i.written c [] = [] := rfl

@[simp] theorem written_cons :
    i.written c (part :: parts) = (i.upgradedPart c part).toList ++ i.written c parts := rfl

-- Every character for a channel is one of the tag, or one of a run that was moved.
theorem mem_written (h : TagPart.IsTag parts cs) (hd : d ∈ i.written c parts) :
    d ∈ cs ∨ ∃ v : RunVersion, d ∈ (v.upgraded c).toList := by
  rw [← h.text_eq]
  simp only [written, List.mem_flatten, List.mem_map] at hd ⊢
  obtain ⟨_, ⟨part, hp, rfl⟩, hd⟩ := hd
  cases below : i.isBelow c part with
  | true =>
    have ⟨v, _, _, _, moved⟩ := upgradedPart_of_isBelow below
    exact .inr ⟨v, moved ▸ hd⟩
  | false => exact .inl ⟨_, ⟨part, hp, rfl⟩, upgradedPart_of_not_isBelow below ▸ hd⟩

theorem written_separator : i.written c (.separator d :: parts) = d :: i.written c parts := by
  have stays : i.isBelow c (.separator d) = false := rfl
  simp [upgradedPart_of_not_isBelow stays, TagPart.text]

theorem startsCut_written (h : TagPart.IsTag parts cs) (hc : TagPart.StartsCut cs) :
    TagPart.StartsCut (i.written c parts) := by
  cases h with
  | nil => exact hc
  | separator hd _ =>
    intro e he
    rw [written_separator] at he
    cases he
    exact hd
  | @piece piece _ _ _ hp inside _ _ =>
    -- such a text would start inside the piece
    exfalso
    have ⟨ne, _⟩ := TagPart.of_ofPiece hp
    cases piece with
    | nil => contradiction
    | cons d ds => exact inside d List.mem_cons_self (hc d rfl)

-- The first run below the channel makes the difference.
theorem written_ne (h : TagPart.IsTag parts cs) (hb : ∃ part ∈ parts, i.isBelow c part) :
    i.written c parts ≠ cs := by
  induction h with
  | nil => simp at hb
  | separator hd _ ih =>
    obtain ⟨part, hm, hb⟩ := hb
    obtain rfl | hm := List.mem_cons.mp hm
    · cases hb
    · rw [written_separator]
      simpa using ih ⟨part, hm, hb⟩
  | @piece piece part parts cs hp inside cut tail ih =>
    have ⟨_, text, version⟩ := TagPart.of_ofPiece hp
    cases first : i.isBelow c part
    case false =>
      obtain ⟨part', hm, hb⟩ := hb
      obtain rfl | hm := List.mem_cons.mp hm
      · simp [first] at hb
      · simpa [upgradedPart_of_not_isBelow first, text] using ih ⟨part', hm, hb⟩
    case true =>
      have ⟨v, hv, below, _, moved⟩ := upgradedPart_of_isBelow first
      rw [written_cons, moved]
      intro heq
      have reached := RunVersion.isAtLeast_of_append (version ▸ hv) inside cut
        (startsCut_written (i := i) tail cut) heq.symm
      simp [below] at reached

theorem afterLast_append {separator : Char} {before after : List Char} (h : separator ∉ after) :
    afterLast separator (before ++ separator :: after) = after := by
  rw [afterLast, List.reverse_append, List.reverse_cons, List.append_assoc, List.singleton_append,
    Text.takeWhile_append_separator (mt List.mem_reverse.mp h), List.reverse_reverse]

theorem exists_afterLast {separator : Char} (h : separator ∈ cs) :
    separator ∉ afterLast separator cs ∧
      ∃ before, cs = before ++ separator :: afterLast separator cs := by
  have ⟨before, after, heq, hn⟩ := List.eq_append_cons_of_mem (List.mem_reverse.mpr h)
  have heq : cs = after.reverse ++ separator :: before.reverse := by
    have := congrArg List.reverse heq
    simpa using this
  have hn : separator ∉ before.reverse := by simpa using hn
  rw [heq, afterLast_append hn]
  exact ⟨hn, _, rfl⟩

-- The end of a reference: its digest behind the `@`.
def digestText : Option String → List Char
  | some digest => '@' :: digest.toList
  | none => []

theorem readDigest_eq_ok {name : List Char} {digest : Option String}
    (h : readDigest cs = .ok (name, digest)) :
    '@' ∉ name ∧ digest ≠ some "" ∧ cs = name ++ digestText digest := by
  unfold readDigest at h
  split at h
  case h_1 hs =>
    cases h
    exact ⟨Text.splitOnce_eq_none_iff.mp hs, by simp, by simp [digestText]⟩
  case h_2 => cases h
  case h_3 ne hs =>
    cases h
    have ⟨heq, hn⟩ := Text.splitOnce_eq_some_iff.mp hs
    exact ⟨hn, by simpa using ne, by simpa [digestText] using heq⟩

theorem readName_eq_ok {repository tag : List Char} (h : readName cs = .ok (repository, tag)) :
    cs = repository ++ ':' :: tag ∧ ':' ∉ tag ∧ '/' ∉ tag ∧ repository ≠ [] ∧ tag ≠ [] := by
  unfold readName at h
  dsimp only at h
  split at h
  case isTrue => cases h
  case isFalse hc =>
    simp only [not_or, Decidable.not_not] at hc
    have ⟨colon, before, heq⟩ := exists_afterLast hc.left
    split at h
    case isTrue => cases h
    case isFalse ne =>
      cases h
      simp only [List.isEmpty_iff, not_or] at ne
      have length := congrArg List.length heq
      simp only [List.length_append, List.length_cons] at length
      have front : cs.take (cs.length - (afterLast ':' cs).length - 1) = before := by
        rw [show cs.length - (afterLast ':' cs).length - 1 = before.length by omega]
        nth_rewrite 1 [heq]
        simp
      exact ⟨by rw [front]; exact heq, colon, hc.right, ne.left, ne.right⟩

-- What is known of a reference that was read.
structure IsRead (cs tag : List Char) (i : ImageReference) : Prop where
  text : cs = i.repository.toList ++ ':' :: tag ++ digestText i.digest
  parts : TagPart.IsTag i.tag tag
  tag_ne : tag ≠ []
  colon : ':' ∉ tag
  slash : '/' ∉ tag
  digest : '@' ∉ i.repository.toList ++ ':' :: tag
  digest_ne : i.digest ≠ some ""
  repository_ne : i.repository.toList ≠ []
  ne_nil : cs ≠ []
  blank : ∀ d ∈ cs, Text.isBlank d = false
  versions : i.versions ≠ []

theorem isRead_of_read (h : read cs = .ok i) : ∃ tag, IsRead cs tag i := by
  unfold read at h
  simp only [bind, Except.bind, pure, Except.pure, throw, throwThe, MonadExceptOf.throw] at h
  split at h
  case isTrue => cases h
  case isFalse hb =>
    simp only [Bool.or_eq_true, List.isEmpty_iff, List.any_eq_true, not_or, not_exists, not_and,
      Bool.not_eq_true] at hb
    split at h
    case h_1 => cases h
    case h_2 parts hd =>
      obtain ⟨name, digest⟩ := parts
      have ⟨hat, digest_ne, text⟩ := readDigest_eq_ok hd
      dsimp only at h
      split at h
      case h_1 => cases h
      case h_2 parts hn =>
        obtain ⟨repository, tag⟩ := parts
        have ⟨name, colon, slash, repository_ne, tag_ne⟩ := readName_eq_ok hn
        dsimp only at h
        split at h
        case isTrue => cases h
        case isFalse versions =>
          cases h
          refine ⟨tag, ?_, TagPart.isTag_read tag, tag_ne, colon, slash, ?_, digest_ne, ?_, hb.left,
            hb.right, by simpa [ImageReference.versions] using versions⟩
          · simp [text, name]
          · simpa [← name] using hat
          · simpa using repository_ne

-- A reference with these parts is read as such.
theorem read_of_isRead {tag : List Char} (h : IsRead cs tag i) : read cs = .ok i := by
  have name : readDigest cs = .ok (i.repository.toList ++ ':' :: tag, i.digest) := by
    unfold readDigest
    rw [h.text]
    cases hd : i.digest
    case none => simp [digestText, Text.splitOnce_eq_none h.digest]
    case some digest =>
      have ne : digest.toList ≠ [] := by
        intro hn
        exact h.digest_ne (hd.trans (congrArg some (String.toList_eq_nil_iff.mp hn)))
      rw [digestText, Text.splitOnce_append h.digest]
      cases hs : digest.toList with
      | nil => contradiction
      | cons d ds => simp [← hs]
  have parts : readName (i.repository.toList ++ ':' :: tag) = .ok (i.repository.toList, tag) := by
    have front : (i.repository.toList ++ ':' :: tag).length - tag.length - 1
        = i.repository.toList.length := by
      simp only [List.length_append, List.length_cons]
      omega
    unfold readName
    simp only [afterLast_append h.colon, front]
    rw [if_neg (by simp [h.slash])]
    simp [h.repository_ne, h.tag_ne]
  have blank : (cs.isEmpty || cs.any Text.isBlank) = false := by
    simpa [h.ne_nil] using h.blank
  have versions : (i.tag.filterMap TagPart.version?).isEmpty = false := by
    simpa [ImageReference.versions] using h.versions
  unfold read
  simp [bind, Except.bind, pure, Except.pure, blank, name, parts, h.parts.read_eq, versions]

theorem toList_upgraded (i : ImageReference) (c : Channel) : (i.upgraded c).toList
    = i.repository.toList ++ ':' :: i.written c i.tag ++ digestText i.digest := by
  have tag : (i.upgradedTag c).toList = i.written c i.tag := by
    simp [upgradedTag, written, String.toList_join, List.flatMap, Function.comp_def]
  cases hd : i.digest <;> simp [upgraded, withTag, digestText, hd, tag]

theorem isRead_of_parse (h : parse text = .ok i) : ∃ tag, IsRead text.toList tag i :=
  isRead_of_read (mapError_eq_ok.mp h)

theorem upgraded_ne (h : parse text = .ok i) (hl : i.isAtLeast c = false) : i.upgraded c ≠ text := by
  intro heq
  have ⟨tag, isRead⟩ := isRead_of_parse h
  apply written_ne isRead.parts (exists_isBelow hl)
  have texts := congrArg String.toList heq
  rw [toList_upgraded, isRead.text] at texts
  simpa using texts

end ImageReference

end Repin
