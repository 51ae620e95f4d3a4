import Repin.Proofs.Upgrader.MonikerPath
import Repin.Proofs.Upgrader.Settled
import Repin.Upgrader.Documents
/-!
# Categories that settle

Each category reads a site by the segments that lead to it and by its value. A category that reads
whole values settles when its kinds of tokens do.
-/
namespace Repin

namespace Site

variable {s s' : Site}

theorem leaf?_congr (h : s'.segments = s.segments) : s'.leaf? = s.leaf? := by
  have last (s : Site) : s.leaf? = s.segments.getLast? := by simp [leaf?, segments]
  rw [last, last, h]

theorem length_path_congr (h : s'.segments = s.segments) : s'.path.length = s.path.length := by
  simpa [segments] using congrArg List.length h

theorem endsWithKeys_congr (h : s'.segments = s.segments) (keys : List String) :
    s'.endsWithKeys keys = s.endsWithKeys keys :=
  congrArg (List.isSuffixOf (keys.map Segment.key)) h

theorem ancestor?_congr (h : s'.segments = s.segments) (depth : Nat) :
    (s'.ancestor? depth).map (·.segment) = (s.ancestor? depth).map (·.segment) := by
  have up (s : Site) : (s.ancestor? depth).map (·.segment) = s.segments.reverse[depth]? := by
    simp [ancestor?, segments, ← List.map_reverse]
  rw [up, up, h]

end Site

namespace Revision

variable {rules : DocumentRules} {channel : Channel} {policy : UpgradePolicy}
variable {registry : Option (String → String → DigestAnswer)} {path : String}
variable {newline newline' : Newline} {site site' : Site} {kinds : TokenKind → Prop} {c : Change}

-- A site is read alike where its segments and its value are.
def Reads (rules : DocumentRules) (path : String) : Prop :=
  ∀ {site site' : Site}, site'.segments = site.segments → site'.value = site.value →
    rules.select path site' = rules.select path site

-- Rules that read whole values, in a grammar that depends on the segments alone.
structure Whole (rules : DocumentRules) (path : String) (kinds : TokenKind → Prop) : Prop where
  reads : Reads rules path
  whole {site : Site} {selection : Selection} : rules.select path site = some selection →
    selection.range = none ∧ kinds selection.kind
  kind {site site' : Site} {selection selection' : Selection} : site'.segments = site.segments →
    rules.select path site = some selection → rules.select path site' = some selection' →
      selection'.kind = selection.kind

theorem change?_congr (sound : IsSound rules path site) (reads : Reads rules path)
    (segments : site'.segments = site.segments) (patchable : site'.patchable = site.patchable)
    (value : site'.value = site.value) :
    change? rules channel policy registry path newline' site'
      = change? rules channel policy registry path newline site := by
  unfold change?
  rw [patchable, reads segments value, value]
  cases hs : rules.select path site with
  | none => simp
  | some selection =>
    have ⟨grammar, part, hpart⟩ := sound selection hs
    cases ht : Token.parse (String.ofList part) selection.kind with
    | error stop => simp [hpart, ht, Except.toOption]
    | ok token =>
      have kind : token.kind ≠ .floatingChannel := Token.kind_of_parse ht ▸ grammar
      simp only [hpart, ht, Option.bind_some, Option.bind_eq_bind, Except.toOption]
      rw [text?_congr kind]

namespace Whole

theorem part?_eq {selection : Selection} (h : selection.range = none) (value : List Char) :
    selection.bounds value = (0, Text.byteLength value) ∧ selection.part? value = some value := by
  have bounds : selection.bounds value = (0, Text.byteLength value) := by simp [Selection.bounds, h]
  refine ⟨bounds, ?_⟩
  rw [Selection.part?, bounds]
  exact Text.slice_eq_some_iff.mpr ⟨[], [], by simp, rfl, rfl⟩

theorem isSound (whole : Whole rules path kinds)
    (suits : ∀ kind, kinds kind → channel.Suits registry kind) : IsSound rules path site := by
  intro selection hs
  have ⟨range, kind⟩ := whole.whole hs
  refine ⟨?_, _, (part?_eq range _).right⟩
  intro floating
  exact (floating ▸ suits _ kind : channel.Suits registry .floatingChannel)

-- The change of a whole value is made from the token of the value.
theorem exists_token (whole : Whole rules path kinds)
    (h : change? rules channel policy registry path newline site = some c) :
    ∃ selection token, site.patchable ∧ rules.select path site = some selection ∧
      kinds selection.kind ∧ Token.parse site.value selection.kind = .ok token ∧
      text? rules channel policy registry newline token = some c.text ∧
      c.offset = 0 ∧ c.part = site.value.toList := by
  obtain ⟨selection, part, token, text, patchable, hs, hpart, ht, htext, rfl⟩ := exists_of_change? h
  have ⟨range, kind⟩ := whole.whole hs
  have ⟨bounds, all⟩ := part?_eq range site.value.toList
  cases all.symm.trans hpart
  rw [String.ofList_toList] at ht
  exact ⟨selection, token, patchable, hs, kind, ht, htext, by simp [bounds], rfl⟩

theorem eq_text_of_turns {value value' : String} (h : c.Turns value value') (hp : c.part = value.toList) :
    value' = c.text := by
  obtain ⟨before, after, cut, _, turned⟩ := h
  rw [hp] at cut
  have lengths := congrArg List.length cut
  simp only [List.length_append] at lengths
  have front : before = [] := List.length_eq_zero_iff.mp (by omega)
  have back : after = [] := List.length_eq_zero_iff.mp (by omega)
  apply String.toList_inj.mp
  simp [turned, front, back]

theorem settled (whole : Whole rules path kinds)
    (suits : ∀ kind, kinds kind → channel.Suits registry kind)
    (moved : site.Moved (change? rules channel policy registry path newline) site') :
    change? rules channel policy registry path newline' site' = none := by
  have turned := moved.value
  cases hc : change? rules channel policy registry path newline site with
  | none =>
    rw [hc] at turned
    rw [change?_congr (whole.isSound suits) whole.reads moved.segments moved.patchable turned, hc]
  | some c =>
    have ⟨selection, token, _, hs, kind, ht, htext, _, part⟩ := whole.exists_token hc
    rw [hc] at turned
    have value := eq_text_of_turns turned part
    cases hc' : change? rules channel policy registry path newline' site' with
    | none => rfl
    | some c' =>
      have ⟨selection', token', _, hs', _, ht', htext', _⟩ := whole.exists_token hc'
      rw [whole.kind moved.segments hs hs', value] at ht'
      have reached := isAtLeast_of_text? (suits _ kind) ht htext ht'
      rw [text?_of_isAtLeast reached] at htext'
      cases htext'

end Whole
end Revision

namespace Json

theorem isPlain_of_isAlphanum {d : Char} (h : d.isAlphanum) : IsPlain d := by
  refine ⟨?_, ?_, ?_⟩
  case _ =>
    rintro rfl
    cases h
  case _ =>
    rintro rfl
    cases h
  case _ =>
    intro control
    have low : d.toNat < 0x20 := UInt32.lt_iff_toNat_lt.mp control
    have ⟨_, _⟩ := Text.toNat_of_isAlphanum h
    omega

theorem isPlain_of_isLabelChar {d : Char} (h : isLabelChar d) : IsPlain d := by
  simp only [isLabelChar, Bool.or_eq_true, beq_iff_eq] at h
  obtain h | rfl := h
  · exact isPlain_of_isAlphanum h
  · exact ⟨by decide, by decide, by decide⟩

theorem isPlain_of_isWritten {d : Char} (h : Moniker.IsWritten d) : IsPlain d := by
  obtain h | rfl | rfl | rfl := h
  case inl => exact isPlain_of_isAlphanum h
  all_goals exact ⟨by decide, by decide, by decide⟩

end Json

namespace Upgrader

variable {path : String}

open Revision (Whole)

theorem whole_globalJson : Whole globalJson path (· = .registrySemver) where
  reads segments _ := by
    simp [globalJson, Site.length_path_congr segments, Site.endsWithKeys_congr segments]
  whole h := by
    simp only [globalJson] at h
    split at h <;> cases h
    exact ⟨rfl, rfl⟩
  kind _ h h' := by
    simp only [globalJson] at h h'
    split at h <;> cases h
    split at h' <;> cases h'
    rfl

theorem whole_awsLambda : Whole awsLambda path fun kind => kind = .managedRuntime ∨ kind = .frameworkMoniker where
  reads segments _ := by
    simp [awsLambda, Site.length_path_congr segments, Site.leaf?_congr segments]
  whole h := by
    simp only [awsLambda] at h
    repeat' split at h
    all_goals cases h
    all_goals simp
  kind segments h h' := by
    simp only [awsLambda, Site.length_path_congr segments, Site.leaf?_congr segments] at h h'
    rw [h] at h'
    cases h'
    rfl

theorem whole_dockerfile : Whole dockerfile path (· = .imageTag) where
  reads segments value := by
    simp only [dockerfile, value, Site.leaf?_congr segments]
  whole h := by
    simp only [dockerfile] at h
    repeat' split at h
    all_goals cases h
    exact ⟨rfl, rfl⟩
  kind _ h h' := by
    simp only [dockerfile] at h h'
    repeat' split at h
    all_goals cases h
    repeat' split at h'
    all_goals cases h'
    rfl

section Texts

variable {rules : DocumentRules} {channel : Channel} {policy : UpgradePolicy} {newline : Newline}
variable {registry : Option (String → String → DigestAnswer)} {token : Token} {kind : TokenKind}
variable {raw text : String}

-- What a channel brings into a value needs no escapes.
theorem isPlain_of_text? (hk : kind = .registrySemver ∨ kind = .managedRuntime ∨ kind = .frameworkMoniker)
    (hp : Token.parse raw kind = .ok token)
    (h : Revision.text? rules channel policy registry newline token = some text)
    (plain : ∀ d ∈ raw.toList, Json.IsPlain d) : ∀ d ∈ text.toList, Json.IsPlain d := by
  have ⟨_, hv⟩ := Token.parse_eq_ok hp
  have same := Token.kind_of_parse hp
  have heq : token.upgraded channel newline = .ok text := by
    apply Revision.eq_upgraded_of_text? _ h
    obtain rfl | rfl | rfl := hk <;> simp [same]
  intro d hd
  obtain rfl | rfl | rfl := hk
  case inl =>
    obtain ⟨version, hl, hv⟩ := map_eq_ok.mp (mapError_eq_ok.mp hv)
    simp only [Token.upgraded, ← hv, Except.ok.injEq] at heq
    rw [← heq] at hd
    obtain h | rfl | rfl := Semver.mem_render hd
    · exact Json.isPlain_of_isLabelChar h
    all_goals exact ⟨by decide, by decide, by decide⟩
  case inr.inl =>
    obtain ⟨runtime, hl, hv⟩ := map_eq_ok.mp (mapError_eq_ok.mp hv)
    simp only [Token.upgraded, ← hv, Except.ok.injEq] at heq
    rw [← heq, ManagedRuntime.forChannel, String.toList_append, List.mem_append] at hd
    obtain hd | hd := hd
    · have letters : "dotnet".toList.all Char.isAlphanum := by decide
      exact Json.isPlain_of_isAlphanum (List.all_eq_true.mp letters d hd)
    · exact Json.isPlain_of_isAlphanum (by simp [Char.isAlphanum, Text.isDigit_of_mem_writeNumber hd])
  case inr.inr =>
    obtain ⟨list, hl, hv⟩ := map_eq_ok.mp (mapError_eq_ok.mp hv)
    simp only [Token.upgraded, ← hv, Except.ok.injEq] at heq
    rw [← heq] at hd
    obtain h | h := MonikerList.mem_upgraded hl hd
    · exact plain d h
    · exact Json.isPlain_of_isWritten h

-- A word that is no flag stays none whatever stands behind its first colon.
theorem isPrefixOf_append_colon (front : List Char) (ne : front ≠ []) (cs ds : List Char) :
    "--".toList.isPrefixOf (front ++ ':' :: cs) = "--".toList.isPrefixOf (front ++ ':' :: ds) := by
  match front with
  | [a] => simp [List.isPrefixOf]
  | a :: b :: front => simp [List.isPrefixOf]

theorem isImage_of_text? (suits : channel.Suits registry .imageTag)
    (hp : Token.parse raw .imageTag = .ok token)
    (h : Revision.text? rules channel policy registry newline token = some text)
    (isImage : Dockerfile.IsImage raw.toList) : Dockerfile.IsImage text.toList := by
  have ⟨_, hv⟩ := Token.parse_eq_ok hp
  obtain ⟨image, hl, hv⟩ := map_eq_ok.mp (mapError_eq_ok.mp hv)
  have ⟨digest, ne, clean, heq⟩ := Revision.exists_imageText hv.symm hl suits h
  have ⟨tag, isRead⟩ := ImageReference.isRead_of_parse hl
  have moved := ImageReference.isRead_moved suits.left isRead ne clean
  rw [heq]
  refine ⟨⟨moved.ne_nil, moved.blank⟩, ?_⟩
  have flag := isImage.flag
  rw [isRead.text, List.append_assoc, List.cons_append] at flag
  rw [List.append_assoc, List.cons_append, isPrefixOf_append_colon _ isRead.repository_ne]
  exact flag

end Texts

section Settles

variable {rules : DocumentRules} {channel : Channel} {policy : UpgradePolicy}
variable {registry : Option (String → String → DigestAnswer)} {kinds : TokenKind → Prop}

open Revision (Settles)

theorem settles_json (whole : Whole rules path kinds)
    (suits : ∀ kind, kinds kind → channel.Suits registry kind ∧
      (kind = .registrySemver ∨ kind = .managedRuntime ∨ kind = .frameworkMoniker)) :
    Settles rules channel policy registry path (fun value => ∀ d ∈ value.toList, Json.IsPlain d)
      fun c _ => ∀ d ∈ c.text.toList, Json.IsPlain d where
  sound _ := whole.isSound fun kind hk => (suits kind hk).left
  fits plain hc := by
    have ⟨_, token, _, _, hk, ht, htext, _⟩ := whole.exists_token hc
    exact isPlain_of_text? (suits _ hk).right ht htext plain
  settled moved := whole.settled (fun kind hk => (suits kind hk).left) moved

theorem settles_dockerfile (suits : channel.Suits registry .imageTag) :
    Settles dockerfile channel policy registry path (fun value => Dockerfile.IsImage value.toList)
      Dockerfile.Replaces where
  sound _ := whole_dockerfile.isSound fun _ hk => hk ▸ suits
  fits isImage hc := by
    have ⟨_, token, _, _, hk, ht, htext, place, part⟩ := whole_dockerfile.exists_token hc
    rw [hk] at ht
    exact ⟨place, part, isImage_of_text? suits ht htext isImage⟩
  settled moved := whole_dockerfile.settled (fun _ hk => hk ▸ suits) moved

end Settles

section VsCode

variable {channel : Channel} {policy : UpgradePolicy} {newline newline' : Newline}
variable {registry : Option (String → String → DigestAnswer)} {site site' : Site} {c : Change}

open Revision (Settles IsSound)

theorem isPath_congr (h : site'.segments = site.segments) : isPath site' = isPath site := by
  simp only [isPath, Site.leaf?_congr h, Site.ancestor?_congr h]

theorem reads_vscode : Revision.Reads vscode path := by
  intro site site' segments value
  simp only [vscode, isPath_congr segments, value]

theorem exists_folder_of_select {selection : Selection} (h : vscode.select path site = some selection) :
    ∃ before name after, MonikerPath.FirstFolder site.value.toList before name after ∧
      selection.kind = .frameworkMoniker ∧ selection.bounds site.value.toList
        = (Text.byteLength before, Text.byteLength before + Text.byteLength name) := by
  simp only [vscode] at h
  split at h
  case isFalse => cases h
  case isTrue =>
    obtain ⟨⟨first, last⟩, hf, rfl⟩ := Option.map_eq_some_iff.mp h
    have ⟨before, name, after, first, place, length⟩ := MonikerPath.exists_folder (by simp) hf
    exact ⟨before, name, after, by simpa using first, rfl, by simp [Selection.bounds, place, length]⟩

theorem isSound_vscode : IsSound vscode path site := by
  intro selection hs
  have ⟨before, name, after, first, kind, bounds⟩ := exists_folder_of_select hs
  refine ⟨by simp [kind], name, ?_⟩
  rw [Selection.part?, bounds]
  exact Text.slice_eq_some_iff.mpr ⟨before, after, first.cut, rfl, Nat.add_comm ..⟩

-- The folder of the channel takes the place of the folder that the path names.
theorem exists_folder_of_change?
    (h : Revision.change? vscode channel policy registry path newline site = some c) :
    ∃ before name after token, MonikerPath.FirstFolder site.value.toList before name after ∧
      c = ⟨Text.byteLength before, name, Moniker.forChannel channel none⟩ ∧
      Token.parse (String.ofList name) .frameworkMoniker = .ok token ∧
      Revision.text? vscode channel policy registry newline token
        = some (Moniker.forChannel channel none) := by
  obtain ⟨selection, part, token, text, _, hs, hpart, ht, htext, rfl⟩ := Revision.exists_of_change? h
  have ⟨before, name, after, first, kind, bounds⟩ := exists_folder_of_select hs
  have heq : part = name := by
    rw [Selection.part?, bounds] at hpart
    have slice : Text.slice (Text.byteLength before) (Text.byteLength before + Text.byteLength name)
        site.value.toList = some name :=
      Text.slice_eq_some_iff.mpr ⟨before, after, first.cut, rfl, Nat.add_comm ..⟩
    exact Option.some.inj (hpart.symm.trans slice)
  subst heq
  rw [kind] at ht
  have ⟨_, hv⟩ := Token.parse_eq_ok ht
  obtain ⟨list, hl, hv⟩ := map_eq_ok.mp (mapError_eq_ok.mp hv)
  have below := (Revision.text?_eq_some htext).left
  have written := Revision.eq_upgraded_of_text? (by simp [Token.kind_of_parse ht]) htext
  simp only [Token.isAtLeast, Token.upgraded, ← hv, Except.ok.injEq] at below written
  have named : text = Moniker.forChannel channel none := by
    rw [← written]
    apply MonikerList.upgraded_of_name hl below
    case blank => simpa using first.isFolder.isBlank_eq
    case semicolon =>
      rw [String.toList_ofList]
      exact first.isFolder.not_mem (by decide) (by decide) (by decide)
    case hyphen =>
      rw [String.toList_ofList]
      exact first.isFolder.not_mem (by decide) (by decide) (by decide)
  subst named
  exact ⟨before, part, after, token, first, by rw [bounds], ht, htext⟩

-- A changed path has the folder of the channel in place of its first one.
theorem toList_of_turns {before name after : List Char} {value value' text : String}
    (first : MonikerPath.FirstFolder value.toList before name after)
    (turns : Change.Turns ⟨Text.byteLength before, name, text⟩ value value') :
    value'.toList = before ++ (text.toList ++ after) := by
  obtain ⟨front, back, cut, place, made⟩ := turns
  obtain ⟨rfl, rest⟩ := Text.append_inj_of_byteLength (first.cut.symm.trans cut) place.symm
  obtain rfl := List.append_cancel_left rest
  exact made

theorem isPlain_of_change? (h : Revision.change? vscode channel policy registry path newline site = some c)
    (plain : ∀ d ∈ site.value.toList, Json.IsPlain d) : ∀ d ∈ c.text.toList, Json.IsPlain d := by
  have ⟨before, name, after, token, first, heq, ht, htext⟩ := exists_folder_of_change? h
  subst heq
  apply isPlain_of_text? (.inr (.inr rfl)) ht htext
  intro d hd
  rw [String.toList_ofList] at hd
  exact plain d (by simp [first.cut, hd])

theorem settled_vscode (suits : channel.Suits registry .frameworkMoniker)
    (moved : site.Moved (Revision.change? vscode channel policy registry path newline) site') :
    Revision.change? vscode channel policy registry path newline' site' = none := by
  have turned := moved.value
  cases hc : Revision.change? vscode channel policy registry path newline site with
  | none =>
    rw [hc] at turned
    rw [Revision.change?_congr isSound_vscode reads_vscode moved.segments moved.patchable turned, hc]
  | some c =>
    rw [hc] at turned
    have ⟨before, name, after, token, first, heq, ht, htext⟩ := exists_folder_of_change? hc
    subst heq
    have value := toList_of_turns first turned
    have found : MonikerPath.find? site'.value = some (0 + Text.byteLength before, 0 + Text.byteLength before
        + Text.byteLength (Moniker.forChannel channel none).toList) := by
      rw [MonikerPath.find?, value]
      exact first.found 0 (MonikerPath.isFolder_forChannel channel)
    rw [Nat.zero_add] at found
    cases hc' : Revision.change? vscode channel policy registry path newline' site' with
    | none => rfl
    | some c' =>
      obtain ⟨selection, part, token', text, _, hs, hpart, ht', htext', _⟩ :=
        Revision.exists_of_change? hc'
      simp only [vscode, found, Option.map_some] at hs
      split at hs
      case isFalse => cases hs
      case isTrue =>
        cases hs
        have slice : Text.slice (Text.byteLength before) (Text.byteLength before
            + Text.byteLength (Moniker.forChannel channel none).toList) site'.value.toList
            = some (Moniker.forChannel channel none).toList :=
          Text.slice_eq_some_iff.mpr ⟨before, after, value, rfl, Nat.add_comm ..⟩
        cases hpart.symm.trans slice
        rw [String.ofList_toList] at ht'
        have reached := Revision.isAtLeast_of_text? suits ht htext ht'
        rw [Revision.text?_of_isAtLeast reached] at htext'
        cases htext'

theorem settles_vscode (suits : channel.Suits registry .frameworkMoniker) :
    Settles vscode channel policy registry path (fun value => ∀ d ∈ value.toList, Json.IsPlain d)
      fun c _ => ∀ d ∈ c.text.toList, Json.IsPlain d where
  sound _ := isSound_vscode
  fits plain hc := isPlain_of_change? hc plain
  settled moved := settled_vscode suits moved

end VsCode

end Upgrader
end Repin
