import Repin.Proofs.Upgrader.Documents
import Repin.Proofs.Version.Cut
import Repin.Readers.Standard
/-!
# The first framework of a path

A path may have any number of folders that are named like a framework. A pass over the settings of an
editor looks at the first of them alone: the folder of the channel takes its place if it is a framework
below the channel, and all others stay. So an old folder is left behind wherever another folder that is
named like a framework stands in front of it.

Main statement: `Revision.pass_moves_first_folder`.
-/
namespace Repin

theorem Channel.isReachedBy_eq_false_iff {c : Channel} {major minor : UInt64} :
    c.isReachedBy major minor = false ↔ major.toNat < c.major.toNat ∨
      major.toNat = c.major.toNat ∧ minor.toNat < c.minor.toNat := by
  simp only [isReachedBy, reaches, ← Bool.not_eq_true, Bool.or_eq_true, Bool.and_eq_true,
    decide_eq_true_eq, beq_iff_eq, UInt64.lt_iff_toNat_lt, UInt64.le_iff_toNat_le, ← UInt64.toNat_inj]
  omega

-- No digit of any script is a letter.
theorem Text.lower_of_isDecimalDigit {d : Char} (h : isDecimalDigit d) :
    's' ≠ d.toLower ∧ 'c' ≠ d.toLower := by
  have outside : d.toNat < 65 ∨ 122 < d.toNat := by
    by_contra letter
    have none : ∀ n ∈ List.range' 65 58,
        (zeroDigits.any fun first => first ≤ n && n < first + 10) = false := by decide
    rw [isDecimalDigit, none _ (by simp; omega)] at h
    cases h
  have same : d.toLower = d := by
    obtain same | ⟨low, high, _⟩ := toLower_cases d
    · exact same
    · omega
  rw [same]
  constructor <;>
  · rintro rfl
    simp at outside

namespace MonikerPath

variable {cs ds es f name before after : List Char} {fs fs' : List (List Char)} {c : Channel}
variable {major minor : Nat}

def IsNumeral (ds : List Char) : Prop :=
  ds ≠ [] ∧ ∀ d ∈ ds, d.isDigit

-- What `net`, a number, a dot and a number name, however many digits there are.
inductive Names : List Char → Nat → Nat → Prop where
  | folder {ds es : List Char} : IsNumeral ds → IsNumeral es →
    Names ('n' :: 'e' :: 't' :: (ds ++ '.' :: es)) (Nat.ofDigitChars 10 ds 0) (Nat.ofDigitChars 10 es 0)

-- The folder is a framework below a channel.
def IsOld (c : Channel) (f : List Char) : Prop :=
  ∃ major minor, Names f major minor ∧ 5 ≤ major ∧
    (major < c.major.toNat ∨ major = c.major.toNat ∧ minor < c.minor.toNat)

-- The numbers of the folder have 64 bits at most.
def Fits (f : List Char) : Prop :=
  ∃ major minor, Names f major minor ∧ major < UInt64.size ∧ minor < UInt64.size

theorem names_iff (hd : '.' ∉ ds) : Names ('n' :: 'e' :: 't' :: (ds ++ '.' :: es)) major minor ↔
    (IsNumeral ds ∧ Nat.ofDigitChars 10 ds 0 = major) ∧
      IsNumeral es ∧ Nat.ofDigitChars 10 es 0 = minor := by
  constructor
  case mp =>
    generalize hf : 'n' :: 'e' :: 't' :: (ds ++ '.' :: es) = f
    intro h
    cases h with
    | @folder ds' es' number number' =>
      have dot : '.' ∉ ds' := fun hm => absurd (number.right _ hm) (by decide)
      have cut : ds ++ '.' :: es = ds' ++ '.' :: es' := by simpa using hf
      have same : Text.splitOnce '.' (ds ++ '.' :: es) = some (ds, es) := Text.splitOnce_append hd
      rw [cut, Text.splitOnce_append dot] at same
      cases same
      exact ⟨⟨number, rfl⟩, number', rfl⟩
  case mpr =>
    rintro ⟨⟨number, rfl⟩, number', rfl⟩
    exact .folder number number'

theorem Names.isMoniker (h : Names f major minor) : isMoniker f := by
  cases h with
  | folder number number' =>
    exact isMoniker_iff.mpr ⟨_, _, rfl, number.left, number'.left,
      fun d hd => Text.isDecimalDigit_of_isDigit (number.right d hd),
      fun d hd => Text.isDecimalDigit_of_isDigit (number'.right d hd)⟩

theorem Names.unique {major' minor' : Nat} (h : Names f major minor) (h' : Names f major' minor') :
    major = major' ∧ minor = minor' := by
  cases h with
  | @folder ds es number number' =>
    have dot : '.' ∉ ds := fun hm => absurd (number.right _ hm) (by decide)
    obtain ⟨⟨_, rfl⟩, _, rfl⟩ := (names_iff dot).mp h'
    exact ⟨rfl, rfl⟩

-- What is named like a framework is read as the framework it names, if its numbers fit.
theorem read_eq_ok_iff {m : Moniker} (h : isMoniker f) : Moniker.read f = .ok m ↔
    ∃ a b : UInt64, Names f a.toNat b.toNat ∧ 5 ≤ a ∧ m = ⟨.net, .release a (some b) none, none⟩ := by
  obtain ⟨ds, es, rfl, ne, ne', digits, digits'⟩ := isMoniker_iff.mp h
  have dot : '.' ∉ ds := fun hm => absurd (digits _ hm) (by decide)
  have dot' : '.' ∉ es := fun hm => absurd (digits' _ hm) (by decide)
  have hyphen : '-' ∉ ds ++ '.' :: es := by
    simp only [List.mem_append, List.mem_cons, not_or]
    exact ⟨fun hm => absurd (digits _ hm) (by decide), by decide,
      fun hm => absurd (digits' _ hm) (by decide)⟩
  have net :
      Moniker.read ('n' :: 'e' :: 't' :: (ds ++ '.' :: es)) = Moniker.readNet (ds ++ '.' :: es) := by
    cases ds with
    | nil => contradiction
    | cons d ds =>
      have lower := Text.lower_of_isDecimalDigit (digits d List.mem_cons_self)
      exact Moniker.read_of_net lower.left lower.right
  have read (n : UInt64) {ns : List Char} : Text.readNumber ns = some n ↔
      IsNumeral ns ∧ Nat.ofDigitChars 10 ns 0 = n.toNat := by
    rw [Text.readNumber_eq_some_iff, Text.IsNumber, IsNumeral, and_assoc]
  have names (a b : UInt64) : Names ('n' :: 'e' :: 't' :: (ds ++ '.' :: es)) a.toNat b.toNat ↔
      Text.readNumber ds = some a ∧ Text.readNumber es = some b := by
    rw [names_iff dot, read, read]
  simp only [names, net, Moniker.readNet_eq_ok_iff dot dot' hyphen, and_assoc]

-- A framework that stands alone is a token, and its version is that of the token.
theorem exists_token_of_read (c : Channel) {v : NumericVersion} (trimmed : Text.trim name = name)
    (pieces : Text.splitAt ';' name = [name]) (h : Moniker.read name = .ok ⟨.net, v, none⟩) :
    ∃ token, Token.parse (String.ofList name) .frameworkMoniker = .ok token ∧
      token.isAtLeast c = c.isReachedBy v.major (v.minor.getD 0) := by
  have piece := MonikerPiece.moniker?_read.mpr (trimmed.symm ▸ h)
  have parse : MonikerList.parse (String.ofList name) = .ok ⟨[MonikerPiece.read name]⟩ := by
    simp [MonikerList.parse, pieces, piece]
  have highest : MonikerList.highest? ⟨[MonikerPiece.read name]⟩ = some ⟨.net, v, none⟩ := by
    simp [MonikerList.highest?, MonikerList.monikers, piece, Moniker.isUpgradable, firstHighest?]
  refine ⟨⟨String.ofList name, .monikers ⟨[MonikerPiece.read name]⟩⟩, ?_, ?_⟩
  case refine_1 =>
    simp only [Token.parse, Token.parseValue, parse]
    rfl
  case refine_2 => simp only [Token.isAtLeast, MonikerList.isAtLeast, highest]

-- A folder that names a framework is a token below a channel if the framework is old and can be read.
theorem exists_token_iff (h : IsFolder name) :
    (∃ token, Token.parse (String.ofList name) .frameworkMoniker = .ok token ∧
      token.isAtLeast c = false) ↔ IsOld c name ∧ Fits name := by
  have trimmed : Text.trim name = name := Text.trim_eq_self (Text.isTrimmed_of_forall h.isBlank_eq)
  have pieces : Text.splitAt ';' name = [name] :=
    Text.splitAt_eq_singleton (h.not_mem (by decide) (by decide) (by decide))
  constructor
  case mp =>
    rintro ⟨token, ht, below⟩
    obtain ⟨_, hv⟩ := Token.parse_eq_ok ht
    obtain ⟨list, hl, hv⟩ := map_eq_ok.mp (mapError_eq_ok.mp hv)
    simp only [Token.isAtLeast, ← hv] at below
    obtain ⟨cs, m, hcs, hm, _, below⟩ := MonikerList.exists_below hl below
    rw [String.toList_ofList, pieces, List.mem_singleton] at hcs
    rw [MonikerPiece.moniker?_read, hcs, trimmed, read_eq_ok_iff h.isMoniker] at hm
    obtain ⟨a, b, names, five, rfl⟩ := hm
    have five : 5 ≤ a.toNat := UInt64.le_iff_toNat_le.mp five
    have below := Channel.isReachedBy_eq_false_iff.mp below
    exact ⟨⟨_, _, names, five, below⟩, _, _, names, a.toNat_lt, b.toNat_lt⟩
  case mpr =>
    rintro ⟨⟨major, minor, names, five, below⟩, _, _, names', lt, lt'⟩
    obtain ⟨rfl, rfl⟩ := names.unique names'
    have read : Moniker.read name =
        .ok ⟨.net, .release (.ofNatLT major lt) (some (.ofNatLT minor lt')) none, none⟩ := by
      apply (read_eq_ok_iff h.isMoniker).mpr
      exact ⟨_, _, by simpa using names, UInt64.le_iff_toNat_le.mpr (by simpa using five), rfl⟩
    obtain ⟨token, ht, same⟩ := exists_token_of_read c trimmed pieces read
    refine ⟨token, ht, same.trans (Channel.isReachedBy_eq_false_iff.mpr ?_)⟩
    simpa [NumericVersion.release] using below

theorem find?_eq_of_first {front back : List (List Char)} (unnamed : ∀ g ∈ front, isMoniker g = false)
    (named : isMoniker f) : (front ++ f :: back).find? isMoniker = some f := by
  rw [List.find?_append, List.find?_eq_none.mpr (by simpa using unnamed), List.find?_cons_of_pos named]
  rfl

theorem IsOld.isMoniker (h : IsOld c f) : isMoniker f := by
  obtain ⟨_, _, names, _⟩ := h
  exact names.isMoniker

theorem not_isOld_forChannel (c : Channel) : ¬ IsOld c (Moniker.forChannel c none).toList := by
  have dot : '.' ∉ (Text.writeNumber c.major).toList := Text.not_mem_writeNumber (by decide)
  rintro ⟨major, minor, names, _, below⟩
  rw [Moniker.toList_forChannel, Moniker.platformText, List.append_nil, names_iff dot] at names
  obtain ⟨⟨_, rfl⟩, _, rfl⟩ := names
  simp [Text.toList_writeNumber] at below

-- The folders of a path before and after a pass: the first one that is named like a framework is moved
-- if it is old and can be read.
inductive FirstMoved (c : Channel) : List (List Char) → List (List Char) → Prop where
  | kept {fs : List (List Char)} : (∀ f ∈ fs.find? isMoniker, ¬ (IsOld c f ∧ Fits f)) → FirstMoved c fs fs
  | moved {name : List Char} {front back : List (List Char)} : (∀ f ∈ front, isMoniker f = false) →
    IsOld c name → Fits name →
      FirstMoved c (front ++ name :: back) (front ++ (Moniker.forChannel c none).toList :: back)

-- What a path has to keep to, so that no old folder is left: an old one is the first that is named like a
-- framework, and it can be read.
structure OnlyFirst (c : Channel) (fs : List (List Char)) : Prop where
  first : fs.Pairwise fun f g => isMoniker f → ¬ IsOld c g
  fits : ∀ f ∈ fs, IsOld c f → Fits f

theorem not_isOld_of_unnamed {front : List (List Char)} (unnamed : ∀ f ∈ front, isMoniker f = false) :
    ∀ f ∈ front, ¬ IsOld c f := by
  intro f hf old
  simpa [old.isMoniker] using unnamed f hf

-- If the first folder that is named like a framework is old, no other one may be.
theorem onlyFirst_iff {front back : List (List Char)} (unnamed : ∀ f ∈ front, isMoniker f = false)
    (old : IsOld c name) (fits : Fits name) :
    OnlyFirst c (front ++ name :: back) ↔ ∀ f ∈ back, ¬ IsOld c f := by
  have early : ∀ f ∈ front, ¬ IsOld c f := not_isOld_of_unnamed unnamed
  constructor
  case mp =>
    intro only g hg
    have behind := (List.pairwise_cons.mp (List.pairwise_append.mp only.first).right.left).left
    exact behind g hg old.isMoniker
  case mpr =>
    intro late
    refine ⟨List.pairwise_append.mpr ⟨?_, List.pairwise_cons.mpr ⟨fun g hg _ => late g hg, ?_⟩, ?_⟩, ?_⟩
    case refine_1 => exact List.pairwise_of_forall_mem_list fun _ _ g hg _ => early g hg
    case refine_2 => exact List.pairwise_of_forall_mem_list fun _ _ g hg _ => late g hg
    case refine_3 => exact fun f hf _ _ named => by simp [unnamed f hf] at named
    case refine_4 =>
      intro f hf old
      obtain hf | rfl | hf := by simpa only [List.mem_append, List.mem_cons] using hf
      · exact absurd old (early f hf)
      · exact fits
      · exact absurd old (late f hf)

theorem FirstMoved.forall_not_isOld_iff (h : FirstMoved c fs fs') :
    (∀ f ∈ fs', ¬ IsOld c f) ↔ OnlyFirst c fs := by
  cases h with
  | kept first =>
    constructor
    case mp =>
      intro none
      have apart := List.pairwise_of_forall_mem_list fun f (_ : f ∈ fs) g hg (_ : isMoniker f) => none g hg
      exact ⟨apart, fun f hf old => absurd old (none f hf)⟩
    case mpr =>
      intro only f hf old
      obtain ⟨front, back, rfl⟩ := List.append_of_mem hf
      have unnamed : ∀ g ∈ front, isMoniker g = false := by
        intro g hg
        have apart := (List.pairwise_append.mp only.first).right.right g hg f List.mem_cons_self
        simpa using mt apart (not_not_intro old)
      exact first f (find?_eq_of_first unnamed old.isMoniker) ⟨old, only.fits f hf old⟩
  | @moved name front back unnamed old fits =>
    simp only [List.forall_mem_append, List.forall_mem_cons, onlyFirst_iff unnamed old fits]
    constructor
    case mp => exact fun ⟨_, _, late⟩ => late
    case mpr => exact fun late => ⟨not_isOld_of_unnamed unnamed, not_isOld_forChannel c, late⟩

theorem FirstFolder.find?_eq (h : FirstFolder cs before name after) :
    (folders cs).find? MonikerPath.isMoniker = some name := by
  obtain ⟨front, back, unnamed, same⟩ := h.around
  rw [h.cut, same name h.isFolder.inside]
  exact find?_eq_of_first unnamed h.isFolder.isMoniker

theorem exists_firstFolder (path : String) (h : (folders path.toList).find? isMoniker = some name) :
    ∃ before after, FirstFolder path.toList before name after := by
  cases hf : find? path with
  | none =>
    have unnamed := isMoniker_eq_false_of_findFrom (by simp) hf
    have := List.find?_some h
    simp [unnamed name (by simpa using List.mem_of_find?_eq_some h)] at this
  | some range =>
    obtain ⟨before, name', after, first, _⟩ := exists_folder (by simp) hf
    rw [List.reverse_nil, List.nil_append] at first
    obtain rfl := Option.some.inj (first.find?_eq.symm.trans h)
    exact ⟨before, after, first⟩

end MonikerPath

open MonikerPath

namespace Upgrader

variable {c : Channel} {newline : Newline} {path : String} {site site' : Site}
variable {registry : Option (String → String → DigestAnswer)}

-- Where an editor's settings have paths: under two keys, and as the elements of `args`.
inductive IsPathAt : List Segment → Prop where
  | program {front : List Segment} : IsPathAt (front ++ [.key "program"])
  | cwd {front : List Segment} : IsPathAt (front ++ [.key "cwd"])
  | argument {front : List Segment} {position : Nat} : IsPathAt (front ++ [.key "args", .index position])

theorem isPath_iff : isPath site ↔ IsPathAt site.segments := by
  have leaf : site.leaf? = site.segments.getLast? := by simp [Site.leaf?, Site.segments]
  have above : (site.ancestor? 1).map (·.segment) = site.segments.reverse[1]? := by
    simp [Site.ancestor?, Site.segments, ← List.map_reverse]
  rw [isPath, leaf, above]
  constructor
  case mp =>
    intro h
    split at h
    case h_1 name last =>
      obtain ⟨front, whole⟩ := List.getLast?_eq_some_iff.mp last
      rw [Bool.or_eq_true, beq_iff_eq, beq_iff_eq] at h
      obtain rfl | rfl := h <;> rw [whole]
      · exact .program
      · exact .cwd
    case h_2 position last =>
      obtain ⟨front, whole⟩ := List.getLast?_eq_some_iff.mp last
      rw [whole, List.reverse_concat, List.getElem?_cons_succ, ← List.head?_eq_getElem?,
        List.head?_reverse, beq_iff_eq] at h
      obtain ⟨outer, rfl⟩ := List.getLast?_eq_some_iff.mp h
      rw [whole, List.append_assoc]
      exact .argument
    case h_3 => cases h
  case mpr =>
    generalize site.segments = segments
    intro h
    cases h <;> simp

-- A site of an editor's settings before and after a pass.
structure PathMoved (c : Channel) (s s' : Site) : Prop where
  segments : s'.segments = s.segments
  patchable : s'.patchable = s.patchable
  path : s.patchable → IsPathAt s.segments →
    FirstMoved c (folders s.value.toList) (folders s'.value.toList)
  other : ¬ (s.patchable ∧ IsPathAt s.segments) → s'.value = s.value

theorem exists_change? {before name after : List Char} (patchable : site.patchable) (isPath : isPath site)
    (first : FirstFolder site.value.toList before name after) (old : IsOld c name) (fits : Fits name) :
    ∃ change, Revision.change? vscode c {} registry path newline site = some change := by
  obtain ⟨token, ht, below⟩ := (exists_token_iff first.isFolder).mpr ⟨old, fits⟩
  have found := first.found 0 first.isFolder
  rw [← first.cut, Nat.zero_add] at found
  have select : vscode.select path site = some ⟨.frameworkMoniker, 1,
      some (Text.byteLength before, Text.byteLength before + Text.byteLength name)⟩ := by
    simp [vscode, isPath, MonikerPath.find?, found]
  have part : Text.slice (Text.byteLength before) (Text.byteLength before + Text.byteLength name)
      site.value.toList = some name :=
    Text.slice_eq_some_iff.mpr ⟨before, after, first.cut, rfl, Nat.add_comm ..⟩
  have allowed : UpgradePolicy.allows {} .frameworkMoniker c := rfl
  have kind : token.kind ≠ .floatingChannel := by simp [Token.kind_of_parse ht]
  obtain ⟨new, hu⟩ := Token.exists_upgraded_of_kind kind c newline
  have text : Revision.text? vscode c {} registry newline token = some new := by
    rw [Revision.text?, Decision.of_of_allows ht below allowed, hu]
    cases hv : token.value <;> simp [vscode, Functor.map, Except.map]
  refine ⟨⟨Text.byteLength before, name, new⟩, ?_⟩
  simp [Revision.change?, patchable, select, Selection.part?, Selection.bounds, part, ht,
    Except.toOption, text]

theorem PathMoved.of_moved
    (moved : site.Moved (Revision.change? vscode c {} registry path newline) site') :
    PathMoved c site site' where
  segments := moved.segments
  patchable := moved.patchable
  path patchable isPath := by
    have turned := moved.value
    cases hc : Revision.change? vscode c {} registry path newline site with
    | none =>
      rw [hc] at turned
      rw [show site'.value = site.value from turned]
      refine .kept fun name found ⟨old, fits⟩ => ?_
      obtain ⟨before, after, first⟩ := exists_firstFolder site.value found
      obtain ⟨change, called⟩ := exists_change? patchable (isPath_iff.mpr isPath) first old fits
      cases hc.symm.trans called
    | some change =>
      rw [hc] at turned
      obtain ⟨before, name, after, token, first, rfl, ht, htext⟩ := exists_folder_of_change? hc
      have below := (Revision.text?_eq_some htext).left
      obtain ⟨old, fits⟩ := (exists_token_iff first.isFolder).mp ⟨token, ht, below⟩
      obtain ⟨front, back, unnamed, around⟩ := first.around
      have inside := (isFolder_forChannel c).inside
      rw [toList_of_turns first turned, around _ inside, first.cut, around name first.isFolder.inside]
      exact .moved unnamed old fits
  other no := by
    have turned := moved.value
    cases hc : Revision.change? vscode c {} registry path newline site with
    | none =>
      rw [hc] at turned
      exact turned
    | some change =>
      obtain ⟨selection, part, token, text, patchable, select, _⟩ := Revision.exists_of_change? hc
      have isPath : isPath site := by
        simp only [vscode] at select
        split at select
        case isTrue h => exact h
        case isFalse => cases select
      exact absurd ⟨patchable, isPath_iff.mp isPath⟩ no

-- No path of the settings has a folder that is a framework below the channel.
def AllMoved (c : Channel) (sites : List Site) : Prop :=
  ∀ s ∈ sites, s.patchable → IsPathAt s.segments → ∀ f ∈ folders s.value.toList, ¬ IsOld c f

theorem allMoved_iff {sites sites' : List Site} (h : List.Forall₂ (PathMoved c) sites sites') :
    AllMoved c sites' ↔
      ∀ s ∈ sites, s.patchable → IsPathAt s.segments → OnlyFirst c (folders s.value.toList) := by
  induction h with
  | nil => simp [AllMoved]
  | cons moved _ ih =>
    simp only [AllMoved, List.forall_mem_cons] at ih ⊢
    rw [moved.segments, moved.patchable]
    refine and_congr (forall₂_congr fun patchable path => ?_) ih
    exact (moved.path patchable path).forall_not_isOld_iff

end Upgrader

namespace Revision

open Upgrader

-- A pass over the settings of an editor completes, and what it leaves is read as settings with the same
-- sites. In each path the first folder that is named like a framework is moved, if it is a framework below
-- the channel whose numbers fit into 64 bits. So no folder below the channel is left exactly if each of
-- them is the first one of its path that is named like a framework.
theorem pass_moves_first_folder (readers : Readers) (c : Channel)
    (registry : Option (String → String → DigestAnswer)) (path text : String) (sites : List Site)
    (hs : DocumentFormat.json.sites readers text = .ok sites) :
    ∃ patch out sites', pass readers vscode c {} registry path text = .ok (.ok (patch, out)) ∧
      DocumentFormat.json.sites readers out = .ok sites' ∧ List.Forall₂ (PathMoved c) sites sites' ∧
      (AllMoved c sites' ↔
        ∀ s ∈ sites, s.patchable → IsPathAt s.segments → OnlyFirst c (folders s.value.toList)) := by
  have stable := DocumentFormat.stable_json readers
  have sound : ∀ s ∈ sites, IsSound vscode path s := fun _ _ => isSound_vscode
  have ⟨patch, out, hp, edits, splice⟩ := exists_pass c {} registry hs
    (fun s hm => (stable.shows hs s hm).left) (stable.separated hs) sound
  rw [edits] at splice
  have fits : ∀ s ∈ sites, ∀ change,
      change? vscode c {} registry path (.detect text.toList) s = some change →
        change.LiesIn s ∧ ∀ d ∈ change.text.toList, Json.IsPlain d := by
    intro s hm change hc
    have inside := liesIn_of_change? hc
    exact ⟨inside, isPlain_of_change? hc ((stable.shows hs s hm).right inside.patchable)⟩
  have ⟨sites', hs', moved⟩ := stable.splice hs fits splice
  have moved : List.Forall₂ (PathMoved c) sites sites' := moved.imp fun _ _ => .of_moved
  exact ⟨patch, out, sites', hp, hs', moved, allMoved_iff moved⟩

theorem pass_moves_first_folder_behind_another :
    let text := "\x7b\"program\": \"bin/net6.0\"\x7d"
    ∃ patch out sites', pass .standard vscode (.ofNumbers 8 0) {} none ".vscode/launch.json" text
        = .ok (.ok (patch, out)) ∧
      DocumentFormat.json.sites .standard out = .ok sites' ∧ AllMoved (.ofNumbers 8 0) sites' := by
  intro text
  have hs : DocumentFormat.json.sites .standard text
      = .ok [⟨[⟨.key "program", [("program", "bin/net6.0")]⟩], "bin/net6.0", .ofLength 13 10, false, true⟩] := by decide +kernel
  have ⟨patch, out, sites', hp, hs', _, all⟩ :=
    pass_moves_first_folder .standard (.ofNumbers 8 0) none ".vscode/launch.json" text _ hs
  refine ⟨patch, out, sites', hp, hs', all.mpr fun s hm _ _ => ?_⟩
  obtain rfl := List.mem_singleton.mp hm
  have names : Names "net6.0".toList 6 0 :=
    @Names.folder ['6'] ['0'] ⟨by simp, by simp⟩ ⟨by simp, by simp⟩
  have cut : folders "bin/net6.0".toList = ["bin".toList, "net6.0".toList] := by decide
  rw [cut]
  have unnamed : ¬ isMoniker "bin".toList := by decide
  refine ⟨List.pairwise_pair.mpr fun named => absurd named unnamed, fun f hf old => ?_⟩
  obtain rfl | rfl := by simpa only [List.mem_cons, List.not_mem_nil, or_false] using hf
  · exact absurd old.isMoniker unnamed
  · exact ⟨6, 0, names, by decide, by decide⟩

-- A folder of an older framework hides the one behind it, and nothing is moved.
theorem pass_leaves_hidden_folder :
    let text := "\x7b\"program\": \"net4.8/net6.0\"\x7d"
    ∃ patch sites, pass .standard vscode (.ofNumbers 8 0) {} none ".vscode/launch.json" text
        = .ok (.ok (patch, text)) ∧
      DocumentFormat.json.sites .standard text = .ok sites ∧ ¬ AllMoved (.ofNumbers 8 0) sites := by
  intro text
  have hs : DocumentFormat.json.sites .standard text
      = .ok [⟨[⟨.key "program", [("program", "net4.8/net6.0")]⟩], "net4.8/net6.0", .ofLength 13 13, false, true⟩] := by decide +kernel
  have same :
      (pass .standard vscode (.ofNumbers 8 0) {} none ".vscode/launch.json" text).map (·.map (·.2))
        = .ok (.ok text) := by decide +kernel
  obtain ⟨result, hp, hr⟩ := map_eq_ok.mp same
  obtain ⟨⟨patch, out⟩, rfl, rfl⟩ := map_eq_ok.mp hr
  refine ⟨patch, _, hp, hs, fun all => ?_⟩
  have names : Names "net6.0".toList 6 0 :=
    @Names.folder ['6'] ['0'] ⟨by simp, by simp⟩ ⟨by simp, by simp⟩
  have old : IsOld (.ofNumbers 8 0) "net6.0".toList := ⟨6, 0, names, by decide, by decide⟩
  exact all _ (List.mem_singleton_self _) rfl (@IsPathAt.program []) _ (by decide) old

end Revision
end Repin
