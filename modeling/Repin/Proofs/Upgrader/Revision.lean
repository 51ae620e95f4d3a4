import Repin.Proofs.Decision
import Repin.Proofs.Locate.Candidate
import Repin.Proofs.Locate.Change
import Repin.Proofs.Patch.Sequence
import Repin.Upgrader.Revision
/-!
# What a pass does

On a document whose sites are separated and show their source, a pass gives each site the change that
its value alone calls for, and nothing else changes.
-/
namespace Repin

variable {sites : List Site} {site : Site}

namespace Revision

variable {rules : DocumentRules} {channel : Channel} {policy : UpgradePolicy}
variable {registry : Option (String → String → DigestAnswer)} {newline : Newline}
variable {readers : Readers} {path text : String} {token : Token}

-- The text for a pinned image, once the registry has given a digest for it.
def pinnedText? (registry : Option (String → String → DigestAnswer)) (text : String) :
    Option String := do
  let image ← (ImageReference.parse text).toOption
  let lookup ← registry
  let digest ← (lookup image.repository image.tagText).toOption.join
  return ImageReference.replaceDigest text digest

-- The text for a token, if it is to be replaced.
def text? (rules : DocumentRules) (channel : Channel) (policy : UpgradePolicy)
    (registry : Option (String → String → DigestAnswer)) (newline : Newline) (token : Token) :
    Option String :=
  match Decision.of token channel policy newline with
  | .ok (.replace text) =>
    match token.value with
    | .image image =>
      if rules.pinsDigests && image.digest.isSome then pinnedText? registry text else some text
    | _ => some text
  | _ => none

theorem exists_pinnedVerdict (registry : Option (String → String → DigestAnswer)) (c : Candidate)
    (text : String) :
    ∃ v, pinnedVerdict (m := Except Fault)
        (registry.map fun answer image tag => .ok (answer image tag)) c text = .ok v ∧
      v.edit? = (pinnedText? registry text).map fun text => ⟨c.span, text⟩ := by
  unfold pinnedVerdict pinnedText?
  cases ImageReference.parse text with
  | error failure => exact ⟨_, rfl, rfl⟩
  | ok image =>
    cases registry with
    | none => exact ⟨_, rfl, rfl⟩
    | some lookup =>
      refine ⟨verdictOfDigest c text image (lookup image.repository image.tagText), rfl, ?_⟩
      unfold verdictOfDigest
      cases hl : lookup image.repository image.tagText with
      | error e => simp [hl, Except.toOption, Verdict.edit?]
      | ok digest => cases digest <;> simp [hl, Except.toOption, Verdict.edit?]

-- Where the token of a candidate can be decided on, the edit of its verdict has the text for the token.
theorem exists_fixedVerdict {d : Decision} {c : Candidate} (rules : DocumentRules)
    (registry : Option (String → String → DigestAnswer))
    (h : Decision.of c.token channel policy newline = .ok d) :
    ∃ v, fixedVerdict rules channel policy registry newline c = .ok v ∧
      v.edit? = (text? rules channel policy registry newline c.token).map fun text =>
        ⟨c.span, text⟩ := by
  unfold fixedVerdict verdict text?
  rw [h]
  simp only [monadLift_self, ok_bind]
  cases d with
  | unchanged => exact ⟨_, rfl, rfl⟩
  | unsupported => exact ⟨_, rfl, rfl⟩
  | replace text =>
    cases hv : c.token.value with
    | image image =>
      cases hp : rules.pinsDigests with
      | false => exact ⟨.edit ⟨c.span, text⟩, by simp [pinnedImage?, hp]; rfl, by simp [Verdict.edit?]⟩
      | true =>
        cases hd : image.digest with
        | none =>
          exact ⟨.edit ⟨c.span, text⟩, by simp [pinnedImage?, hp, hv, hd]; rfl,
            by simp [hd, Verdict.edit?]⟩
        | some digest => simpa [pinnedImage?, hp, hv, hd] using exists_pinnedVerdict registry c text
    | _ =>
      exact ⟨.edit ⟨c.span, text⟩,
        by cases hp : rules.pinsDigests <;> simp [pinnedImage?, hp, hv] <;> rfl, rfl⟩

-- The change that a site calls for.
def change? (rules : DocumentRules) (channel : Channel) (policy : UpgradePolicy)
    (registry : Option (String → String → DigestAnswer)) (path : String) (newline : Newline)
    (site : Site) : Option Change :=
  if site.patchable then do
    let selection ← rules.select path site
    let part ← selection.part? site.value.toList
    let token ← (Token.parse (String.ofList part) selection.kind).toOption
    let text ← text? rules channel policy registry newline token
    return ⟨(selection.bounds site.value.toList).1, part, text⟩
  else
    none

-- What a selection may ask of a site: a part of the value that can be cut out, in a grammar whose
-- reader cannot fail.
def IsSound (rules : DocumentRules) (path : String) (site : Site) : Prop :=
  ∀ selection, rules.select path site = some selection →
    selection.kind ≠ .floatingChannel ∧ ∃ part, selection.part? site.value.toList = some part

theorem parse_ne_fault {kind : TokenKind} {fault : Fault} (h : kind ≠ .floatingChannel) :
    Token.parse text kind ≠ .error (.fault fault) := by
  have refused {α : Type} {x : Except ParseFailure α} :
      x.mapError ParseStop.refused ≠ .error (.fault fault) := by
    cases x <;> simp
  unfold Token.parse
  intro hp
  have hv : Token.parseValue text kind = .error (.fault fault) := by
    cases hv : Token.parseValue text kind <;> simp_all [Functor.map, Except.map]
  cases kind
  case floatingChannel => contradiction
  all_goals exact refused hv

-- The span of a part of a site that shows its source.
theorem exists_span {source : List Char} {selection : Selection} {part : List Char}
    (hp : site.patchable) (shows : site.Shows source)
    (hc : selection.part? site.value.toList = some part) :
    ∃ span : Span, (match selection.range with
        | some (start, stop) => site.span.narrow start stop
        | none => pure site.span) = .ok span ∧
      span = .ofLength (site.span.start + (selection.bounds site.value.toList).1)
        (Text.byteLength part) ∧
      Text.slice span.start span.stop source = some part ∧
      site.span.start ≤ span.start ∧ span.stop ≤ site.span.stop := by
  have inside := Text.slice_slice (shows hp) hc
  have ⟨order, last⟩ := Text.le_of_slice hc
  have ⟨_, _, _, _, whole⟩ := Text.slice_eq_some_iff.mp (shows hp)
  have ⟨_, _, _, _, length⟩ := Text.slice_eq_some_iff.mp hc
  have stop : (Span.ofLength (site.span.start + (selection.bounds site.value.toList).1)
      (Text.byteLength part)).stop = site.span.start + (selection.bounds site.value.toList).2 := by
    simp only [Span.ofLength]
    omega
  refine ⟨_, ?_, rfl, stop ▸ inside, ?_, ?_⟩
  case _ =>
    unfold Selection.bounds at *
    cases hr : selection.range with
    | none =>
      simp only [hr, Option.getD_none] at length ⊢
      exact congrArg _ (Span.eq_ofLength (by simp) (by omega))
    | some range =>
      simp only [hr, Option.getD_some] at length order last ⊢
      rw [Span.narrow_eq_ok order (by omega)]
      exact congrArg _ (congrArg _ (by omega))
  case _ =>
    simp only [Span.ofLength]
    omega
  case _ =>
    simp only [Span.ofLength]
    omega

-- The candidate of a site has the token of the part and lies where the part lies.
theorem exists_ofSite? {source : List Char} {selection : Selection} {part : List Char}
    (hp : site.patchable) (shows : site.Shows source) (hk : selection.kind ≠ .floatingChannel)
    (hc : selection.part? site.value.toList = some part) :
    ∃ found, Candidate.ofSite? source selection site = .ok found ∧
      found.map (·.token) = (Token.parse (String.ofList part) selection.kind).toOption ∧
      ∀ c ∈ found, c.span = .ofLength (site.span.start + (selection.bounds site.value.toList).1)
        (Text.byteLength part) ∧ site.span.start ≤ c.span.start ∧ c.span.stop ≤ site.span.stop := by
  have ⟨span, hs, heq, slice, first, last⟩ := exists_span hp shows hc
  cases ht : Token.parse (String.ofList part) selection.kind with
  | ok token =>
    refine ⟨some ⟨token, span, (Text.position source span.start).line, selection.specificity,
      site.block⟩, ?_, rfl, ?_⟩
    case _ =>
      unfold Candidate.ofSite?
      cases hr : selection.range <;> simp only [hr] at hs <;> simp [hp, hs, slice, ht] <;> rfl
    case _ =>
      intro c hc
      cases hc
      exact ⟨heq, first, last⟩
  | error stop =>
    cases stop with
    | refused failure =>
      refine ⟨none, ?_, rfl, by simp⟩
      unfold Candidate.ofSite?
      cases hr : selection.range <;> simp only [hr] at hs <;> simp [hp, hs, slice, ht] <;> rfl
    | fault fault => exact absurd ht (parse_ne_fault hk)

-- Such a token can always be decided on.
theorem exists_of_toOption_parse {kind : TokenKind} {token : Token} (hk : kind ≠ .floatingChannel)
    (ht : (Token.parse text kind).toOption = some token) (channel : Channel) (policy : UpgradePolicy)
    (newline : Newline) : ∃ d, Decision.of token channel policy newline = .ok d := by
  have parsed : Token.parse text kind = .ok token := toOption_eq_some_iff.mp ht
  exact Decision.exists_of (Token.kind_of_parse parsed ▸ hk) channel policy newline

-- What the verdict on a candidate makes of it, by a registry that always answers the same.
def edit? (rules : DocumentRules) (channel : Channel) (policy : UpgradePolicy)
    (registry : Option (String → String → DigestAnswer)) (newline : Newline) (c : Candidate) :
    Option EditSpan :=
  (fixedVerdict rules channel policy registry newline c).toOption.bind Verdict.edit?

theorem exists_atSite {source : List Char} (channel : Channel) (policy : UpgradePolicy)
    (registry : Option (String → String → DigestAnswer)) (newline : Newline) (shows : site.Shows source)
    (sound : IsSound rules path site) :
    ∃ found, Candidate.atSite source (fun s => .ok (rules.select path s)) site = .ok found ∧
      found.bind (edit? rules channel policy registry newline)
        = (change? rules channel policy registry path newline site).map (·.editIn site.span) ∧
      ∀ c ∈ found, (∃ v, fixedVerdict rules channel policy registry newline c = .ok v) ∧
        site.span.start ≤ c.span.start ∧ c.span.stop ≤ site.span.stop := by
  unfold change?
  cases hsel : rules.select path site with
  | none =>
    refine ⟨none, Candidate.atSite_of_none (by rw [hsel]), ?_, by simp⟩
    split <;> rfl
  | some selection =>
    by_cases hp : site.patchable
    case neg =>
      refine ⟨none, ?_, by simp [hp], by simp⟩
      rw [Candidate.atSite_of_some (by rw [hsel])]
      simp [Candidate.ofSite?, hp]
    case pos =>
      have ⟨grammar, part, hc⟩ := sound selection hsel
      have ⟨found, hf, token, place⟩ := exists_ofSite? hp shows grammar hc
      have atSite : Candidate.atSite source (fun s => .ok (rules.select path s)) site
          = Candidate.ofSite? source selection site := Candidate.atSite_of_some (by rw [hsel])
      rw [hf] at atSite
      refine ⟨found, atSite, ?_⟩
      cases found with
      | none =>
        simp only [Option.map_none] at token
        simp [hp, hc, ← token]
      | some c =>
        simp only [Option.map_some] at token
        have ⟨span, inside⟩ := place c rfl
        have ⟨d, decided⟩ := exists_of_toOption_parse grammar token.symm channel policy newline
        have ⟨v, hv, edit⟩ := exists_fixedVerdict rules registry decided
        simp only [Option.mem_def, Option.some.injEq, forall_eq']
        refine ⟨?_, ⟨v, hv⟩, inside⟩
        simp only [hp, hc, ← token, Option.bind_some, edit?, hv, toOption_ok, edit, if_true,
          Option.bind_eq_bind]
        cases text? rules channel policy registry newline c.token with
        | none => rfl
        | some text => simp [Change.editIn, span]

def found? (rules : DocumentRules) (path : String) (source : List Char) (site : Site) :
    Option Candidate :=
  (Candidate.atSite source (fun s => .ok (rules.select path s)) site).toOption.join

theorem found?_spec {source : List Char} (channel : Channel) (policy : UpgradePolicy)
    (registry : Option (String → String → DigestAnswer)) (newline : Newline) (shows : site.Shows source)
    (sound : IsSound rules path site) :
    Candidate.atSite source (fun s => .ok (rules.select path s)) site
        = .ok (found? rules path source site) ∧
      (found? rules path source site).bind (edit? rules channel policy registry newline)
        = (change? rules channel policy registry path newline site).map (·.editIn site.span) ∧
      ∀ c ∈ found? rules path source site,
        (∃ v, fixedVerdict rules channel policy registry newline c = .ok v) ∧
        site.span.start ≤ c.span.start ∧ c.span.stop ≤ site.span.stop := by
  have ⟨found, hf, edit, place⟩ := exists_atSite channel policy registry newline shows sound
  have heq : found? rules path source site = found := by simp [found?, hf, Except.toOption]
  rw [heq]
  exact ⟨hf, edit, place⟩

-- What a site calls for, step by step.
theorem exists_of_change? {c : Change}
    (h : change? rules channel policy registry path newline site = some c) :
    ∃ selection part token text, site.patchable ∧ rules.select path site = some selection ∧
      selection.part? site.value.toList = some part ∧
      Token.parse (String.ofList part) selection.kind = .ok token ∧
      text? rules channel policy registry newline token = some text ∧
      c = ⟨(selection.bounds site.value.toList).1, part, text⟩ := by
  unfold change? at h
  split at h
  case isFalse => cases h
  case isTrue hp =>
    obtain ⟨selection, hsel, h⟩ := Option.bind_eq_some_iff.mp h
    obtain ⟨part, hpart, h⟩ := Option.bind_eq_some_iff.mp h
    obtain ⟨token, htoken, h⟩ := Option.bind_eq_some_iff.mp h
    obtain ⟨text, htext, h⟩ := Option.bind_eq_some_iff.mp h
    cases h
    exact ⟨selection, part, token, text, hp, hsel, hpart, toOption_eq_some_iff.mp htoken, htext, rfl⟩

theorem liesIn_of_change? {c : Change}
    (h : change? rules channel policy registry path newline site = some c) : c.LiesIn site := by
  obtain ⟨selection, part, _, _, hp, _, hpart, _, _, rfl⟩ := exists_of_change? h
  have ⟨_, _, _, _, length⟩ := Text.slice_eq_some_iff.mp hpart
  refine ⟨hp, ?_⟩
  have hpart : Text.slice (selection.bounds site.value.toList).1
    (selection.bounds site.value.toList).2 site.value.toList = some part := hpart
  rwa [← length, Nat.add_comm] at hpart

-- The candidates of a document, the verdicts on them and the patch come down to the changes that the
-- sites call for.
theorem exists_pass (channel : Channel) (policy : UpgradePolicy)
    (registry : Option (String → String → DigestAnswer))
    (hs : (rules.formatOf path).sites readers text = .ok sites)
    (shows : ∀ s ∈ sites, s.Shows text.toList)
    (separated : sites.Pairwise fun s t => s.span.Precedes t.span)
    (sound : ∀ s ∈ sites, IsSound rules path s) :
    ∃ patch text', pass readers rules channel policy registry path text = .ok (.ok (patch, text')) ∧
      patch.edits = Change.editsOf (change? rules channel policy registry path (.detect text.toList)) sites ∧
      Splice 0 text.toList patch.edits text'.toList := by
  have spec (s : Site) (hm : s ∈ sites) :=
    found?_spec channel policy registry (.detect text.toList) (shows s hm) (sound s hm)
  have candidates : Candidate.find text sites (fun s => .ok (rules.select path s))
      = .ok (sites.filterMap (found? rules path text.toList)) := by
    apply Candidate.find_eq_ok fun s hm => (spec s hm).left
    exact Site.pairwise_inside separated fun s hm c hc => ((spec s hm).right.right c hc).right
  have ⟨verdicts, hv⟩ : ∃ verdicts, (sites.filterMap (found? rules path text.toList)).mapM
      (fixedVerdict rules channel policy registry (.detect text.toList)) = .ok verdicts := by
    refine exists_mapM_eq_ok fun c hc => ?_
    have ⟨s, hm, here⟩ := List.mem_filterMap.mp hc
    exact ((spec s hm).right.right c here).left
  have edits : verdicts.filterMap Verdict.edit?
      = Change.editsOf (change? rules channel policy registry path (.detect text.toList)) sites := by
    rw [filterMap_of_mapM hv, List.filterMap_filterMap]
    exact List.filterMap_congr fun s hm => (spec s hm).right.left
  have lies : ∀ s ∈ sites, ∀ c, change? rules channel policy registry path (.detect text.toList) s
      = some c → c.LiesIn s := fun _ _ _ => liesIn_of_change?
  have ordered : (Change.editsOf (change? rules channel policy registry path (.detect text.toList))
      sites).Pairwise fun e f => e.span.Precedes f.span :=
    Change.separated_editsOf lies shows separated
  have ⟨patch, hp, same⟩ := PatchSet.exists_ofUnordered_of_perm (.refl _) ordered
  have ⟨out, splice⟩ := Change.exists_splice lies shows separated
  rw [← same] at splice
  refine ⟨patch, String.ofList out, ?_, same, by simpa using splice⟩
  have applied : patch.apply text = .ok (String.ofList out) :=
    PatchSet.apply_eq_ok_iff.mpr (by simpa using splice)
  unfold pass Revision.candidates
  simp only [hs, Except.map, candidates, ok_bind, hv, patchOf, edits, hp, applied]
  rfl

end Revision
end Repin
