import Mathlib.Data.List.TakeWhile
import Repin.Proofs.Text.Blank
import Repin.Proofs.Text.Bytes
import Repin.Proofs.Text.Split
import Repin.Proofs.Version.Floating
import Repin.Proofs.Version.Image
import Repin.Version.Token
/-!
# Where the grammars cut a text

The readers keep the parts of a text. This module counts where the parts lie: a piece starts one byte
behind the end of the one before it, and what is cut off at the front is as long as the text got
shorter. Main statement: `Token.isExact_of_mem_cuts`, by which the offsets counted lie in the text, not
inside of a character, and enclose the part that is kept. The suffix of a feature band is not among
these cuts.
-/
namespace Repin

variable {cs front before after : List Char}

namespace Text

theorem toLower_cases (c : Char) : c.toLower = c ∨
    (65 ≤ c.toNat ∧ c.toNat ≤ 90 ∧ c.toLower.toNat = c.toNat + 32) := by
  by_cases upper : c.val ≥ 'A'.val ∧ c.val ≤ 'Z'.val
  case neg => exact .inl (dif_neg upper)
  case pos =>
    have low : 65 ≤ c.val.toNat := UInt32.le_iff_toNat_le.mp upper.left
    have high : c.val.toNat ≤ 90 := UInt32.le_iff_toNat_le.mp upper.right
    have moved : c.toLower.val = c.val + ('a'.val - 'A'.val) := by
      delta Char.toLower
      rw [dif_pos upper]
    have sum : c.toLower.val.toNat = (c.val.toNat + 32) % 2 ^ 32 := by
      rw [moved, UInt32.toNat_add]
      rfl
    refine .inr ⟨low, high, ?_⟩
    change c.toLower.val.toNat = c.val.toNat + 32
    omega

theorem utf8Size_of_toNat_le {c : Char} (h : c.toNat ≤ 127) : c.utf8Size = 1 :=
  Char.utf8Size_eq_one_iff.mpr (UInt32.le_iff_toNat_le.mpr h)

theorem utf8Size_toLower (c : Char) : c.toLower.utf8Size = c.utf8Size := by
  obtain same | ⟨_, high, moved⟩ := toLower_cases c
  · rw [same]
  · rw [utf8Size_of_toNat_le (by omega : c.toNat ≤ 127),
      utf8Size_of_toNat_le (by omega : c.toLower.toNat ≤ 127)]

theorem toLower_eq_hyphen_iff (c : Char) : c.toLower = '-' ↔ c = '-' := by
  obtain same | ⟨low, _, moved⟩ := toLower_cases c
  · rw [same]
  · have hyphen : '-'.toNat = 45 := rfl
    constructor
    case mp =>
      intro h
      rw [h] at moved
      omega
    case mpr =>
      rintro rfl
      omega

-- The first hyphen is at the same place in either case.
theorem dropWhile_hyphen_lowercase (cs : List Char) :
    (lowercase cs).dropWhile (· ≠ '-') = lowercase (cs.dropWhile (· ≠ '-')) := by
  induction cs with
  | nil => rfl
  | cons c cs ih =>
    rw [lowercase, List.map_cons]
    by_cases hc : c = '-'
    case pos =>
      have hl : c.toLower = '-' := (toLower_eq_hyphen_iff c).mpr hc
      rw [List.dropWhile_cons_of_neg (by simp [hl]), List.dropWhile_cons_of_neg (by simp [hc])]
      rfl
    case neg =>
      have hl : c.toLower ≠ '-' := fun h => hc ((toLower_eq_hyphen_iff c).mp h)
      rw [List.dropWhile_cons_of_pos (by simp [hl]), List.dropWhile_cons_of_pos (by simp [hc])]
      exact ih

theorem byteLength_lowercase (cs : List Char) : byteLength (lowercase cs) = byteLength cs := by
  induction cs with
  | nil => rfl
  | cons c cs ih =>
    rw [lowercase, List.map_cons, byteLength_cons, byteLength_cons, utf8Size_toLower]
    exact congrArg _ ih

-- Pieces with their offsets, of which the first is given. A separator has one byte.
def placesFrom (offset : Nat) : List (List Char) → List (Nat × List Char)
  | [] => []
  | piece :: pieces => (offset, piece) :: placesFrom (offset + byteLength piece + 1) pieces

-- The induction is on the text, since a character makes the first piece longer or opens a new one.
theorem exists_of_mem_placesFrom {isSeparator : Char → Bool}
    (narrow : ∀ c, isSeparator c → c.utf8Size = 1) :
    ∀ p ∈ placesFrom (byteLength front) (splitOn isSeparator cs), ∃ before after,
      front ++ cs = before ++ (p.2 ++ after) ∧ byteLength before = p.1 := by
  induction cs generalizing front with
  | nil =>
    intro p hp
    cases List.mem_singleton.mp hp
    exact ⟨front, [], by simp, rfl⟩
  | cons c cs ih =>
    have whole : front ++ c :: cs = (front ++ [c]) ++ cs := by simp
    have ih := @ih (front ++ [c])
    rw [← whole] at ih
    by_cases hc : isSeparator c
    case pos =>
      have width : byteLength (front ++ [c]) = byteLength front + 0 + 1 := by simp [narrow c hc]
      rw [splitOn_cons_separator hc]
      intro p hp
      rcases List.mem_cons.mp hp with rfl | hp
      case inl => exact ⟨front, c :: cs, rfl, rfl⟩
      case inr => exact ih p (width ▸ hp)
    case neg =>
      cases hs : splitOn isSeparator cs with
      | nil => exact absurd hs (splitOn_ne_nil isSeparator cs)
      | cons piece pieces =>
        have split : splitOn isSeparator (c :: cs) = (c :: piece) :: pieces := by
          simp [splitOn, hc, hs]
        rw [hs] at ih
        rw [split]
        intro p hp
        rcases List.mem_cons.mp hp with rfl | hp
        case inl =>
          obtain ⟨before, after, heq, hb⟩ := ih _ List.mem_cons_self
          obtain ⟨_, rest⟩ := append_inj_of_byteLength (whole ▸ heq) hb.symm
          exact ⟨front, after, by simp [rest], rfl⟩
        case inr =>
          apply ih p
          apply List.mem_cons_of_mem
          have width : byteLength (front ++ [c]) + byteLength piece + 1
              = byteLength front + byteLength (c :: piece) + 1 := by
            simp only [byteLength_append, byteLength_cons, byteLength_nil]
            omega
          rwa [width]

-- The pieces are found at their offsets.
theorem slice_of_mem_placesFrom {isSeparator : Char → Bool}
    (narrow : ∀ c, isSeparator c → c.utf8Size = 1) {p : Nat × List Char}
    (h : p ∈ placesFrom (byteLength front) (splitOn isSeparator cs)) :
    slice p.1 (p.1 + byteLength p.2) (front ++ cs) = some p.2 := by
  have ⟨before, after, whole, hb⟩ := exists_of_mem_placesFrom narrow p h
  exact slice_eq_some_iff.mpr ⟨before, after, whole, hb, by omega⟩

theorem slice_of_mem_placesFrom_zero {separator : Char} (narrow : separator.utf8Size = 1)
    {p : Nat × List Char} (h : p ∈ placesFrom 0 (splitAt separator cs)) :
    slice p.1 (p.1 + byteLength p.2) cs = some p.2 := by
  apply @slice_of_mem_placesFrom cs [] (· == separator)
  case narrow =>
    intro c hc
    rw [eq_of_beq hc, narrow]
  case h => exact h

end Text

-- A part of a text as it is kept, and the offsets at which it was counted to start and to stop.
structure Cut where
  source : List Char
  start : Nat
  stop : Nat
  part : List Char

namespace Cut

-- The offsets enclose the part.
def IsExact (c : Cut) : Prop :=
  Text.slice c.start c.stop c.source = some c.part

theorem isExact_of_append {part : List Char} {start stop : Nat} (h : cs = before ++ (part ++ after))
    (hs : start = Text.byteLength before) (hl : stop = start + Text.byteLength part) :
    IsExact ⟨cs, start, stop, part⟩ :=
  Text.slice_eq_some_iff.mpr ⟨before, after, h, hs.symm, by dsimp only; omega⟩

theorem isExact_front {stop : Nat} (h : cs = before ++ after) (hl : stop = Text.byteLength before) :
    IsExact ⟨cs, 0, stop, before⟩ :=
  @isExact_of_append cs [] after before 0 stop h rfl (by simp [hl])

theorem isExact_back {start : Nat} (h : cs = before ++ after) (hs : start = Text.byteLength before) :
    IsExact ⟨cs, start, Text.byteLength cs, after⟩ :=
  @isExact_of_append cs before [] after start _ (by simp [h]) hs (by simp [h, hs])

end Cut

namespace Moniker

-- The platform is found in the text in lower case, and is taken from the end of the text as written.
def cuts (cs : List Char) : List Cut :=
  match (Text.stripStart? "net".toList (Text.lowercase cs)).bind (Text.splitOnce '-') with
  | some (_, lower) =>
    [⟨cs, Text.byteLength cs - Text.byteLength lower, Text.byteLength cs,
      (cs.dropWhile (· ≠ '-')).tail⟩]
  | none => []

theorem isExact_of_mem_cuts {c : Cut} (h : c ∈ cuts cs) : c.IsExact := by
  unfold cuts at h
  split at h
  case h_2 => cases h
  case h_1 number lower found =>
    cases List.mem_singleton.mp h
    obtain ⟨rest, hr, hs⟩ := Option.bind_eq_some_iff.mp found
    obtain ⟨hrest, outside⟩ := Text.splitOnce_eq_some_iff.mp hs
    -- behind "net" and its number, both texts go on with a hyphen
    have name : '-' ∉ "net".toList ++ number := by
      simp [outside]
    have whole : Text.lowercase cs = ("net".toList ++ number) ++ '-' :: lower := by
      rw [Text.stripStart?_eq_some_iff.mp hr, hrest, List.append_assoc]
    have behind : Text.lowercase (cs.dropWhile (· ≠ '-')) = '-' :: lower := by
      rw [← Text.dropWhile_hyphen_lowercase, whole]
      exact Text.dropWhile_of_splitOnce (Text.splitOnce_append name)
    obtain ⟨d, platform, hd, _, hp⟩ := List.map_eq_cons_iff.mp behind
    have parts : cs = (cs.takeWhile (· ≠ '-') ++ [d]) ++ platform := by
      rw [List.append_assoc, List.singleton_append, ← hd, List.takeWhile_append_dropWhile]
    have length : Text.byteLength lower = Text.byteLength platform := by
      rw [← hp]
      exact Text.byteLength_lowercase platform
    rw [hd, List.tail_cons]
    apply Cut.isExact_back parts
    have total := congrArg Text.byteLength parts
    rw [Text.byteLength_append] at total
    omega

end Moniker

namespace MonikerList

-- An item starts as far behind the start of its piece as trimming the start makes the piece shorter.
def cuts (cs : List Char) : List Cut :=
  (Text.placesFrom 0 (Text.splitAt ';' cs)).flatMap fun (offset, piece) =>
    let start := offset + (Text.byteLength piece - Text.byteLength (Text.trimStart piece))
    ⟨cs, start, start + Text.byteLength (Text.trim piece), Text.trim piece⟩ ::
      Moniker.cuts (Text.trim piece)

theorem isExact_of_mem_cuts {c : Cut} (h : c ∈ cuts cs) : c.IsExact := by
  obtain ⟨⟨offset, piece⟩, hp, hc⟩ := List.mem_flatMap.mp h
  obtain rfl | hc := List.mem_cons.mp hc
  · have outer := Text.slice_of_mem_placesFrom_zero rfl hp
    have inner := Text.slice_trim piece
    have nested := Text.slice_slice outer inner
    rw [← Nat.add_assoc] at nested
    exact nested
  · exact Moniker.isExact_of_mem_cuts hc

end MonikerList

namespace RuntimeIdentifier

-- The name of a system ends where its letters do, which are counted as bytes.
def cuts (cs : List Char) : List Cut :=
  let system := cs.takeWhile (· ≠ '-')
  let name := system.takeWhile Char.isAlpha
  [⟨cs, 0, Text.byteLength system, system⟩,
    ⟨cs, Text.byteLength system, Text.byteLength cs, cs.dropWhile (· ≠ '-')⟩,
    ⟨system, 0, name.length, name⟩,
    ⟨system, name.length, Text.byteLength system, system.dropWhile Char.isAlpha⟩]

theorem byteLength_of_isAlpha (h : ∀ c ∈ cs, c.isAlpha) : Text.byteLength cs = cs.length := by
  induction cs with
  | nil => rfl
  | cons c cs ih =>
    have letter : c.isAlphanum := by simp [Char.isAlphanum, h c List.mem_cons_self]
    have range := Text.toNat_of_isAlphanum letter
    have one := Text.utf8Size_of_toNat_le (by omega : c.toNat ≤ 127)
    have tail := ih fun d hd => h d (List.mem_cons_of_mem c hd)
    rw [Text.byteLength_cons, List.length_cons, one, tail, Nat.add_comm]

theorem isExact_of_mem_cuts {c : Cut} (h : c ∈ cuts cs) : c.IsExact := by
  have halves : cs = cs.takeWhile (· ≠ '-') ++ cs.dropWhile (· ≠ '-') :=
    List.takeWhile_append_dropWhile.symm
  have parts : cs.takeWhile (· ≠ '-') = (cs.takeWhile (· ≠ '-')).takeWhile Char.isAlpha ++
      (cs.takeWhile (· ≠ '-')).dropWhile Char.isAlpha :=
    List.takeWhile_append_dropWhile.symm
  have letters : Text.byteLength ((cs.takeWhile (· ≠ '-')).takeWhile Char.isAlpha)
      = ((cs.takeWhile (· ≠ '-')).takeWhile Char.isAlpha).length :=
    byteLength_of_isAlpha fun c hc => List.all_eq_true.mp List.all_takeWhile c hc
  simp only [cuts, List.mem_cons, List.not_mem_nil, or_false] at h
  obtain rfl | rfl | rfl | rfl := h
  · exact Cut.isExact_front halves rfl
  · exact Cut.isExact_back halves rfl
  · exact Cut.isExact_front parts letters.symm
  · exact Cut.isExact_back parts letters.symm

end RuntimeIdentifier

-- The items of a list are not kept by their offsets.
def RuntimeIdentifierList.cuts (cs : List Char) : List Cut :=
  (Text.splitAt ';' cs).flatMap fun piece => RuntimeIdentifier.cuts (Text.trim piece)

theorem RuntimeIdentifierList.isExact_of_mem_cuts {c : Cut} (h : c ∈ cuts cs) : c.IsExact := by
  obtain ⟨_, _, hc⟩ := List.mem_flatMap.mp h
  exact RuntimeIdentifier.isExact_of_mem_cuts hc

namespace FloatingLine

-- The cuts in a line, which may still have its carriage return: the text before the first `#`, what
-- stands behind the expression, and the indentation.
def cuts (line : List Char) : List Cut :=
  let kept := Text.stripLast '\r' line
  let body := (splitComment kept).1
  [⟨kept, 0, Text.byteLength (kept.takeWhile (· ≠ '#')), kept.takeWhile (· ≠ '#')⟩,
    ⟨kept, Text.byteLength body, Text.byteLength kept, kept.drop body.length⟩,
    ⟨body, 0, Text.byteLength body - Text.byteLength (Text.trimStart body),
      body.takeWhile Text.isBlank⟩]

theorem isExact_of_mem_cuts {line : List Char} {c : Cut} (h : c ∈ cuts line) : c.IsExact := by
  simp only [cuts, List.mem_cons, List.not_mem_nil, or_false] at h
  obtain rfl | rfl | rfl := h
  · exact Cut.isExact_front List.takeWhile_append_dropWhile.symm rfl
  · apply Cut.isExact_back _ rfl
    have front := List.prefix_iff_eq_take.mp (splitComment_isPrefix (Text.stripLast '\r' line))
    nth_rewrite 1 [← List.take_append_drop (splitComment (Text.stripLast '\r' line)).1.length
      (Text.stripLast '\r' line)]
    rw [← front]
  · exact Cut.isExact_front List.takeWhile_append_dropWhile.symm (Text.byteLength_sub_trimStart _)

end FloatingLine

namespace FloatingList

-- An expression starts behind the indentation of its line.
def cuts (cs : List Char) : List Cut :=
  (Text.placesFrom 0 (Text.splitAt '\n' cs)).flatMap fun (offset, line) =>
    let body := (FloatingLine.splitComment (Text.stripLast '\r' line)).1
    let start := offset + Text.byteLength (body.takeWhile Text.isBlank)
    ⟨cs, start, start + Text.byteLength (Text.trimStart body), Text.trimStart body⟩ ::
      FloatingLine.cuts line

theorem isExact_of_mem_cuts {c : Cut} (h : c ∈ cuts cs) : c.IsExact := by
  obtain ⟨⟨offset, line⟩, hp, hc⟩ := List.mem_flatMap.mp h
  obtain rfl | hc := List.mem_cons.mp hc
  · have inLine := (FloatingLine.splitComment_isPrefix _).trans (Text.stripLast_isPrefix '\r' line)
    have outer := Text.slice_slice (Text.slice_of_mem_placesFrom_zero rfl hp) (Text.slice_isPrefix inLine)
    have nested := Text.slice_slice outer (Text.slice_trimStart _)
    rw [Nat.add_zero, ← Nat.add_assoc] at nested
    exact nested
  · exact FloatingLine.isExact_of_mem_cuts hc

end FloatingList

namespace ImageReference

-- The name and the digest behind the first `@`.
def digestCuts (cs : List Char) : List Cut :=
  match Text.splitOnce '@' cs with
  | some (name, digest) =>
    [⟨cs, 0, Text.byteLength name, name⟩,
      ⟨cs, Text.byteLength name + 1, Text.byteLength cs, digest⟩]
  | none => []

-- The cuts in a name. The colon before the tag is looked for behind the last slash, and the pieces of
-- the tag are counted from the start of the name.
def nameCuts (name : List Char) : List Cut :=
  let path := afterLast '/' name
  let slash := Text.byteLength name - Text.byteLength path
  ⟨name, slash, Text.byteLength name, path⟩ ::
    match readName name with
    | .ok (repository, tag) =>
      let start := slash + (Text.byteLength path - Text.byteLength (afterLast ':' path))
      ⟨name, 0, start - 1, repository⟩ :: ⟨name, start, Text.byteLength name, tag⟩ ::
        (Text.placesFrom start (Text.splitOn TagPart.isSeparator tag)).map fun (offset, piece) =>
          ⟨name, offset, offset + Text.byteLength piece, piece⟩
    | .error _ => []

def cuts (cs : List Char) : List Cut :=
  digestCuts cs ++ nameCuts (cs.takeWhile (· ≠ '@'))

theorem isExact_of_mem_digestCuts {c : Cut} (h : c ∈ digestCuts cs) : c.IsExact := by
  unfold digestCuts at h
  split at h
  case h_2 => cases h
  case h_1 name digest hs =>
    have ⟨whole, _⟩ := Text.splitOnce_eq_some_iff.mp hs
    have whole' : cs = (name ++ ['@']) ++ digest := by simp [whole]
    simp only [List.mem_cons, List.not_mem_nil, or_false] at h
    obtain rfl | rfl := h
    · exact Cut.isExact_front whole rfl
    · exact Cut.isExact_back whole' (by rw [Text.byteLength_append]; rfl)

theorem exists_append_afterLast (separator : Char) (cs : List Char) :
    ∃ front, cs = front ++ afterLast separator cs := by
  have ⟨front, h⟩ := List.reverse_suffix.mpr (List.takeWhile_prefix (· ≠ separator) (l := cs.reverse))
  exact ⟨front, by simpa [afterLast] using h.symm⟩

theorem afterLast_eq_self {separator : Char} (h : separator ∉ cs) : afterLast separator cs = cs := by
  rw [afterLast, Text.takeWhile_eq_self_of_not_mem (mt List.mem_reverse.mp h), List.reverse_reverse]

-- What follows the last slash ends in the tag as well, since a tag has no slash.
theorem exists_afterLast_slash {repository tag : List Char} (slash : '/' ∉ tag) :
    ∃ front path, repository = front ++ path ∧
      afterLast '/' (repository ++ ':' :: tag) = path ++ ':' :: tag := by
  have outside : '/' ∉ ':' :: tag := by simp [slash]
  by_cases hs : '/' ∈ repository
  case pos =>
    obtain ⟨last, before, heq⟩ := exists_afterLast hs
    have behind : '/' ∉ afterLast '/' repository ++ ':' :: tag := by simp [last, slash]
    refine ⟨before ++ ['/'], afterLast '/' repository, by simpa using heq, ?_⟩
    nth_rewrite 1 [heq]
    rw [List.append_assoc, List.cons_append]
    exact afterLast_append behind
  case neg =>
    have nowhere : '/' ∉ repository ++ ':' :: tag := by simp [hs, slash]
    exact ⟨[], repository, rfl, afterLast_eq_self nowhere⟩

-- The place behind the last colon that follows the last slash is where the tag starts.
theorem start_of_readName {name repository tag : List Char} (h : readName name = .ok (repository, tag)) :
    Text.byteLength name - Text.byteLength (afterLast '/' name)
        + (Text.byteLength (afterLast '/' name)
          - Text.byteLength (afterLast ':' (afterLast '/' name)))
      = Text.byteLength repository + 1 := by
  obtain ⟨rfl, colon, slash, _, _⟩ := readName_eq_ok h
  obtain ⟨front, path, rfl, behind⟩ := @exists_afterLast_slash repository tag slash
  have one : ':'.utf8Size = 1 := rfl
  rw [behind, afterLast_append colon]
  simp only [Text.byteLength_append, Text.byteLength_cons, one]
  omega

theorem utf8Size_of_isSeparator (d : Char) (h : TagPart.isSeparator d) : d.utf8Size = 1 := by
  rw [TagPart.isSeparator, Bool.or_eq_true, beq_iff_eq, beq_iff_eq] at h
  obtain rfl | rfl := h <;> rfl

theorem isExact_of_mem_nameCuts {name : List Char} {c : Cut} (h : c ∈ nameCuts name) : c.IsExact := by
  have ⟨front, whole⟩ := exists_append_afterLast '/' name
  have total := congrArg Text.byteLength whole
  rw [Text.byteLength_append] at total
  obtain rfl | h := List.mem_cons.mp h
  · exact Cut.isExact_back whole (by omega)
  split at h
  case h_2 => cases h
  case h_1 repository tag hn =>
    obtain ⟨parts, _⟩ := readName_eq_ok hn
    have parts' : name = (repository ++ [':']) ++ tag := by simp [parts]
    have start : Text.byteLength (repository ++ [':']) = Text.byteLength repository + 1 := by
      rw [Text.byteLength_append]
      rfl
    rw [start_of_readName hn] at h
    obtain rfl | rfl | h := by simpa only [List.mem_cons] using h
    · exact Cut.isExact_front parts rfl
    · exact Cut.isExact_back parts' start.symm
    · obtain ⟨⟨offset, piece⟩, hp, rfl⟩ := List.mem_map.mp h
      rw [← start] at hp
      have found := Text.slice_of_mem_placesFrom utf8Size_of_isSeparator hp
      rw [← parts'] at found
      exact found

theorem isExact_of_mem_cuts {c : Cut} (h : c ∈ cuts cs) : c.IsExact := by
  obtain h | h := List.mem_append.mp h
  · exact isExact_of_mem_digestCuts h
  · exact isExact_of_mem_nameCuts h

end ImageReference

namespace Token

-- The cuts that the reader of a kind makes. Two of the grammars cut at single characters only.
def cuts (cs : List Char) : TokenKind → List Cut
  | .frameworkMoniker => MonikerList.cuts cs
  | .registrySemver | .managedRuntime => []
  | .runtimeIdentifier => RuntimeIdentifierList.cuts cs
  | .floatingChannel => FloatingList.cuts cs
  | .imageTag => ImageReference.cuts cs

theorem isExact_of_mem_cuts {kind : TokenKind} {c : Cut} (h : c ∈ cuts cs kind) : c.IsExact := by
  cases kind
  case frameworkMoniker => exact MonikerList.isExact_of_mem_cuts h
  case registrySemver => cases h
  case runtimeIdentifier => exact RuntimeIdentifierList.isExact_of_mem_cuts h
  case managedRuntime => cases h
  case floatingChannel => exact FloatingList.isExact_of_mem_cuts h
  case imageTag => exact ImageReference.isExact_of_mem_cuts h

end Token
end Repin
