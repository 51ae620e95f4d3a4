import Repin.Proofs.Dockerfile.Document
import Repin.Proofs.Patch.Sequence
/-!
# The images of a Dockerfile

What a line is read as is said twice: by the reading of its words, and by rules that take the line apart
into its keyword, its flags, its image and its stage. Any images may be exchanged in one patch, and the
rules find the new ones in their places.

Main statement: `located_and_exchanged`.
-/
namespace Repin

namespace Text

variable {last : Char} {line body cs : List Char}

-- A text without its last character, where that is a given one.
inductive Without (last : Char) : List Char → List Char → Prop where
  | dropped {body : List Char} : Without last (body ++ [last]) body
  | same {body : List Char} : (∀ c ∈ body.getLast?, c ≠ last) → Without last body body

-- What a line says in front of its line feed and of one return before that.
def HasBody (line body : List Char) : Prop :=
  ∃ whole, Without '\n' line whole ∧ Without '\r' whole body

theorem without_iff : Without last cs body ↔ stripLast last cs = body := by
  constructor
  case mp =>
    intro h
    cases h with
    | dropped => simp [stripLast_append, stripLast]
    | same other => exact stripLast_eq_self other
  case mpr =>
    rintro rfl
    by_cases other : ∀ c ∈ cs.getLast?, c ≠ last
    case pos =>
      rw [stripLast_eq_self other]
      exact .same other
    case neg =>
      simp only [ne_eq, not_forall, not_not, Option.mem_def] at other
      obtain ⟨c, hc, rfl⟩ := other
      obtain ⟨front, rfl⟩ := List.getLast?_eq_some_iff.mp hc
      simpa [stripLast_append, stripLast] using Without.dropped

theorem hasBody_iff : HasBody line body ↔ stripTerminator line = body := by
  simp only [HasBody, without_iff, exists_eq_left', stripTerminator]

end Text

namespace Dockerfile

variable {offset : Nat} {line body cs : List Char} {ls : List (List Char)} {ws : List Word}
variable {l : FromLine} {s : Site} {keyword : String}

-- The letters of a word are those of a keyword, each in either case.
def Spells (cs : List Char) (keyword : String) : Prop :=
  List.Forall₂ (fun c k => c = k ∨ c = k.toLower) cs keyword.toList

theorem toUpper_eq_iff {c k : Char} (h : k.isUpper) : c.toUpper = k ↔ c = k ∨ c = k.toLower := by
  have both : k.val ≥ 'A'.val ∧ k.val ≤ 'Z'.val := by
    delta Char.isUpper at h
    simpa using h
  have upper : 65 ≤ k.val.toNat ∧ k.val.toNat ≤ 90 := by
    simpa [UInt32.le_iff_toNat_le] using both
  have lower : k.toLower.val.toNat = k.val.toNat + 32 := by
    delta Char.toLower
    rw [dif_pos both, UInt32.toNat_add]
    change (k.val.toNat + 32) % 2 ^ 32 = _
    omega
  simp only [Char.ext_iff, ← UInt32.toNat_inj, lower]
  unfold Char.toUpper
  split
  case isTrue small =>
    have range : 97 ≤ c.val.toNat ∧ c.val.toNat ≤ 122 := by
      simpa [UInt32.le_iff_toNat_le] using small
    have raised : (c.val + ('A'.val - 'a'.val)).toNat + 32 = c.val.toNat := by
      rw [UInt32.toNat_add]
      change (c.val.toNat + 4294967264) % 2 ^ 32 + 32 = _
      omega
    dsimp only
    omega
  case isFalse other =>
    have range : ¬ (97 ≤ c.val.toNat ∧ c.val.toNat ≤ 122) := by
      simpa [UInt32.le_iff_toNat_le] using other
    omega

theorem map_toUpper_eq_iff {ks : List Char} (h : ∀ k ∈ ks, k.isUpper) :
    cs.map Char.toUpper = ks ↔ List.Forall₂ (fun c k => c = k ∨ c = k.toLower) cs ks := by
  induction ks generalizing cs with
  | nil => simp
  | cons k ks ih =>
    have ⟨first, others⟩ := List.forall_mem_cons.mp h
    cases cs with
    | nil => simp
    | cons c cs => simp [toUpper_eq_iff first, ih others]

theorem Word.is_iff {w : Word} (h : ∀ k ∈ keyword.toList, k.isUpper) :
    w.is keyword ↔ Spells w.text keyword := by
  rw [Word.is, beq_iff_eq, map_toUpper_eq_iff h, Spells]

theorem Word.isFlag_iff {w : Word} : w.isFlag ↔ "--".toList <+: w.text := by
  rw [Word.isFlag, List.isPrefixOf_iff_prefix]

-- The stage that the words behind an image name.
inductive NamesStage : List Word → Option String → Prop where
  | named {keyword name : Word} {rest : List Word} : Spells keyword.text "AS" →
    NamesStage (keyword :: name :: rest) (some (String.ofList name.text))
  | none {ws : List Word} :
    (∀ keyword name rest, ws = keyword :: name :: rest → ¬ Spells keyword.text "AS") → NamesStage ws none

-- The words of an instruction: its keyword, the flags, the image and what names the stage.
inductive Instructs : List Word → FromLine → Prop where
  | image {instruction image : Word} {flags behind : List Word} {stage : Option String} :
    Spells instruction.text "FROM" → (∀ w ∈ flags, "--".toList <+: w.text) →
      ¬ "--".toList <+: image.text → NamesStage behind stage →
        Instructs (instruction :: (flags ++ image :: behind)) ⟨image, stage⟩

theorem namesStage_stageOf (ws : List Word) : NamesStage ws (stageOf ws) := by
  have upper : ∀ k ∈ "AS".toList, k.isUpper := List.all_eq_true.mp (by decide)
  unfold stageOf
  split
  case h_1 keyword name rest =>
    split
    case isTrue spelled => exact .named ((Word.is_iff upper).mp spelled)
    case isFalse other =>
      refine .none fun keyword name rest whole spelled => other ?_
      obtain ⟨rfl, _⟩ := List.cons.inj whole
      exact (Word.is_iff upper).mpr spelled
  case h_2 few => exact .none fun keyword name rest whole => (few keyword name rest whole).elim

theorem NamesStage.stageOf_eq {stage : Option String} (h : NamesStage ws stage) : stageOf ws = stage := by
  have upper : ∀ k ∈ "AS".toList, k.isUpper := List.all_eq_true.mp (by decide)
  cases h with
  | named spelled => simp [stageOf, (Word.is_iff upper).mpr spelled]
  | none other =>
    unfold stageOf
    split
    case h_1 keyword name rest =>
      rw [if_neg (mt (Word.is_iff upper).mp (other keyword name rest rfl))]
    case h_2 => rfl

theorem instructs_iff : Instructs ws l ↔ FromLine.ofWords? ws = some l := by
  have upper : ∀ k ∈ "FROM".toList, k.isUpper := List.all_eq_true.mp (by decide)
  constructor
  case mp =>
    intro h
    cases h with
    | @image instruction image flags behind stage spelled all first named =>
      have isFlag : ∀ w ∈ flags, w.isFlag := fun w hw => Word.isFlag_iff.mpr (all w hw)
      rw [FromLine.ofWords?, if_pos ((Word.is_iff upper).mpr spelled),
        List.dropWhile_append_of_pos isFlag,
        List.dropWhile_cons_of_neg (mt Word.isFlag_iff.mp first)]
      simp [named.stageOf_eq]
  case mpr =>
    intro h
    unfold FromLine.ofWords? at h
    split at h
    case h_1 => cases h
    case h_2 instruction rest =>
      split at h
      case isFalse => cases h
      case isTrue spelled =>
        split at h
        case h_1 => cases h
        case h_2 image behind hd =>
          cases h
          obtain ⟨flags, rfl, isFlag, first⟩ := exists_flags hd
          refine .image ((Word.is_iff upper).mp spelled) (fun w hw => ?_) ?_ (namesStage_stageOf behind)
          case refine_1 => exact Word.isFlag_iff.mp (isFlag w hw)
          case refine_2 => exact fun flag => by simp [Word.isFlag_iff.mpr flag] at first

-- The sites of the lines from an offset on: one for each line whose words are an instruction.
inductive Located : Nat → List (List Char) → List Site → Prop where
  | nil {offset : Nat} : Located offset [] []
  | image {offset : Nat} {line body : List Char} {ws : List Word} {l : FromLine}
    {ls : List (List Char)} {sites : List Site} :
    Text.HasBody line body → Words offset body ws → Instructs ws l →
      Located (offset + Text.byteLength line) ls sites → Located offset (line :: ls) (l.site :: sites)
  | other {offset : Nat} {line body : List Char} {ws : List Word} {ls : List (List Char)}
    {sites : List Site} :
    Text.HasBody line body → Words offset body ws → (∀ l, ¬ Instructs ws l) →
      Located (offset + Text.byteLength line) ls sites → Located offset (line :: ls) sites

theorem located_sitesFrom (offset : Nat) (ls : List (List Char)) :
    Located offset ls (sitesFrom offset ls) := by
  induction ls generalizing offset with
  | nil => exact .nil
  | cons line ls ih =>
    have body : Text.HasBody line (Text.stripTerminator line) := Text.hasBody_iff.mpr rfl
    have read := words_words offset (Text.stripTerminator line)
    rw [sitesFrom_cons, site?]
    cases hl : FromLine.ofWords? (words offset (Text.stripTerminator line)) with
    | none =>
      refine .other body read (fun l instructs => ?_) (ih _)
      cases hl.symm.trans (instructs_iff.mp instructs)
    | some l => exact .image body read (instructs_iff.mpr hl) (ih _)

theorem Located.eq_sitesFrom {sites : List Site} (h : Located offset ls sites) :
    sites = sitesFrom offset ls := by
  induction h with
  | nil => rfl
  | image body read instructs _ ih =>
    rw [sitesFrom_cons, site?, Text.hasBody_iff.mp body, read.words_eq, instructs_iff.mp instructs, ih]
    rfl
  | @other offset _ _ ws _ _ body read none _ ih =>
    have unread : FromLine.ofWords? ws = .none :=
      Option.eq_none_iff_forall_ne_some.mpr fun l hl => none l (instructs_iff.mpr hl)
    rw [sitesFrom_cons, site?, Text.hasBody_iff.mp body, read.words_eq, unread, ih]
    rfl

-- The edits that put the chosen images at their spans.
def exchanges (choose : Span → Option String) (sites : List Site) : List EditSpan :=
  sites.filterMap fun s => (choose s.span).map fun image => ⟨s.span, image⟩

-- A choice as changes of whole values.
def chosen (choose : Span → Option String) (s : Site) : Option Change :=
  (choose s.span).map fun image => ⟨0, s.value.toList, image⟩

-- A site after an exchange: in its place, with its stage, and with the chosen image.
structure Holds (choose : Span → Option String) (s s' : Site) : Prop where
  path : s'.path = s.path
  value : s'.value = (choose s.span).getD s.value

theorem Moved.holds {choose : Span → Option String} {s' : Site} (h : Moved (chosen choose) s s') :
    Holds choose s s' where
  path := h.path
  value := by
    have turned := h.value
    unfold chosen at turned
    cases hc : choose s.span with
    | none => simpa [hc, Change.Turned] using turned
    | some image =>
      obtain ⟨before, after, whole, start, made⟩ :
          ∃ before after, s.value.toList = before ++ (s.value.toList ++ after) ∧
            Text.byteLength before = 0 ∧ s'.value.toList = before ++ (image.toList ++ after) := by
        simpa [hc, Change.Turned, Change.Turns] using turned
      have lengths := congrArg List.length whole
      simp only [List.length_append] at lengths
      obtain rfl := List.length_eq_zero_iff.mp (show before.length = 0 by omega)
      obtain rfl := List.length_eq_zero_iff.mp (show after.length = 0 by omega)
      exact String.toList_inj.mp (by simpa using made)

theorem patchable_of_mem_sitesFrom (h : s ∈ sitesFrom offset ls) : s.patchable := by
  obtain ⟨l, _, rfl⟩ := List.mem_map.mp h
  rfl

-- A span is as long as the image under it.
theorem ofLength_of_mem_sites {text : String} (h : s ∈ sites text) :
    Span.ofLength s.span.start (Text.byteLength s.value.toList) = s.span := by
  have slice := shows_of_mem_sites h (patchable_of_mem_sitesFrom h)
  have ⟨_, _, _, _, length⟩ := Text.slice_eq_some_iff.mp slice
  cases hs : s.span with
  | mk start stop _ =>
    simp only [hs] at length
    simp only [Span.ofLength, Span.mk.injEq, true_and]
    omega

theorem editsOf_chosen (choose : Span → Option String) (text : String) :
    Change.editsOf (chosen choose) (sites text) = exchanges choose (sites text) := by
  apply List.filterMap_congr
  intro s hs
  simp only [chosen, Option.map_map]
  congr 1
  funext image
  simp [Change.editIn, ofLength_of_mem_sites hs]

theorem exists_exchanged {choose : Span → Option String} {text : String}
    (images : ∀ s ∈ sites text, ∀ image ∈ choose s.span, IsImage image.toList) {edits : List EditSpan}
    (perm : edits.Perm (exchanges choose (sites text))) :
    ∃ p out, PatchSet.ofUnordered edits = .ok p ∧ p.apply text = .ok out ∧
      List.Forall₂ (Holds choose) (sites text) (sites out) := by
  rw [← editsOf_chosen] at perm
  have replaces : ∀ s ∈ sites text, ∀ c, chosen choose s = some c → Replaces c s := by
    intro s hs c hc
    obtain ⟨image, hi, rfl⟩ := Option.map_eq_some_iff.mp hc
    exact ⟨rfl, rfl, images s hs image hi⟩
  have lies : ∀ s ∈ sites text, ∀ c, chosen choose s = some c → c.LiesIn s := by
    intro s hs c hc
    obtain ⟨image, hi, rfl⟩ := Option.map_eq_some_iff.mp hc
    refine ⟨patchable_of_mem_sitesFrom hs, ?_⟩
    rw [Nat.zero_add]
    exact Text.slice_isPrefix (List.prefix_refl _)
  have shows : ∀ s ∈ sites text, s.Shows text.toList := fun s hs => shows_of_mem_sites hs
  have separated := Change.separated_editsOf lies shows (separated_sites text)
  obtain ⟨p, hp, order⟩ := PatchSet.exists_ofUnordered_of_perm perm separated
  obtain ⟨out, splice⟩ := Change.exists_splice lies shows (separated_sites text)
  rw [← String.toList_ofList (l := out)] at splice
  refine ⟨p, String.ofList out, hp, PatchSet.apply_eq_ok_iff.mpr (order ▸ splice), ?_⟩
  exact (exists_sites_of_splice replaces splice).imp fun _ _ moved => moved.holds

-- The sites of a text are those that the rules locate in its lines, and the text under a span is the image
-- of its site. Spans are apart, so a choice of images is one for each span. Whatever is chosen, the edits
-- make a patch in any order, and the patched text has the same sites with the chosen images.
theorem located_and_exchanged (text : String) :
    (∃ ls, Text.Lines text.toList ls ∧ ∀ located, Located 0 ls located ↔ located = sites text) ∧
    (∀ s ∈ sites text, Text.slice s.span.start s.span.stop text.toList = some s.value.toList) ∧
    ((sites text).Pairwise fun s t => s.span.Precedes t.span) ∧
    ∀ choose : Span → Option String,
      (∀ s ∈ sites text, ∀ image ∈ choose s.span, IsImage image.toList) →
        ∀ edits : List EditSpan, edits.Perm (exchanges choose (sites text)) →
          ∃ p out, PatchSet.ofUnordered edits = .ok p ∧ p.apply text = .ok out ∧
            List.Forall₂ (Holds choose) (sites text) (sites out) := by
  refine ⟨⟨_, Text.lines_terminatedLines _, fun located => ⟨Located.eq_sitesFrom, ?_⟩⟩, fun s hs => ?_,
    separated_sites text, fun choose images edits perm => exists_exchanged images perm⟩
  case refine_1 =>
    rintro rfl
    exact located_sitesFrom 0 _
  case refine_2 => exact shows_of_mem_sites hs (patchable_of_mem_sitesFrom hs)

-- Images that read like keywords, for an image behind a flag and one that is behind a return.
theorem located_and_exchanged_keywords :
    let text := "FROM --platform=x a AS b\r\nFrom 日:1\n"
    let choose (s : Span) := if s.start = 18 then some "AS" else some "FROM"
    ∃ p out, PatchSet.ofUnordered [⟨.ofLength 31 5, "FROM"⟩, ⟨.ofLength 18 1, "AS"⟩] = .ok p ∧
      p.apply text = .ok out ∧ List.Forall₂ (Holds choose) (sites text) (sites out) := by
  intro text choose
  have found : sites text = [FromLine.site ⟨⟨18, "a".toList⟩, some "b"⟩,
      FromLine.site ⟨⟨31, "日:1".toList⟩, none⟩] := by decide +kernel
  have images : ∀ s ∈ sites text, ∀ image ∈ choose s.span, IsImage image.toList := by
    intro s _ image hi
    have either : image = "AS" ∨ image = "FROM" := by grind
    rcases either with rfl | rfl
    · exact ⟨⟨by decide, by simp; decide⟩, by decide⟩
    · exact ⟨⟨by decide, by simp; decide⟩, by decide⟩
  have ⟨_, _, _, exchanged⟩ := located_and_exchanged text
  refine exchanged choose images _ ?_
  rw [found]
  exact .swap _ _ _

end Dockerfile
end Repin
