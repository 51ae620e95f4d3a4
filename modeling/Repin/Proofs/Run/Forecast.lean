import Repin.Proofs.Document.Encoding
import Repin.Proofs.Run.Ending
import Repin.Proofs.Run.Files
/-!
# What a category changes

While the registry always answers the same, the change that a category makes in a file follows from the
file alone. A run that writes makes the changes, a dry one tells of them, and both report them alike.
Main statement: `reviseFiles_follows`.
-/
namespace Repin

variable {σ α β : Type} {answers : Option (String → String → DigestAnswer)}
variable {outside : Collaborators σ} {s s' s'' : RunState σ}

-- A registry, if there is one, that always answers the same and does nothing to the world.
def Collaborators.AnswersBy (outside : Collaborators σ)
    (answers : Option (String → String → DigestAnswer)) : Prop :=
  outside.registry = answers.map fun answer image tag => pure (answer image tag)

-- What a run remembers of the registry is what it answers.
def RunState.Recalls (answers : Option (String → String → DigestAnswer)) (s : RunState σ) : Prop :=
  ∀ answer, answers = some answer → ∀ image tag digest, s.digests.find? image tag = some digest →
    answer image tag = .ok digest

theorem DigestCache.find?_insert {c : DigestCache} {image tag image' tag' : String}
    {digest digest' : Option String} (h : (c.insert image tag digest).find? image' tag' = some digest') :
    (image' = image ∧ tag' = tag ∧ digest' = digest) ∨ c.find? image' tag' = some digest' := by
  rw [find?, insert, List.lookup_cons] at h
  split at h
  case h_1 same =>
    cases h
    have ⟨first, second⟩ := Prod.mk.inj (eq_of_beq same)
    exact .inl ⟨first, second, rfl⟩
  case h_2 => exact .inr h

-- A state behind a part of a run that touched no file and told nothing.
structure Untouched (answers : Option (String → String → DigestAnswer)) (s s' : RunState σ) : Prop where
  recalls : s'.Recalls answers
  disk : s'.world.disk = s.world.disk
  diagnostics : s'.diagnostics = s.diagnostics

-- A part of a run that gives a known answer where it comes to its end, and touches no file. It comes
-- to no end where the answer is a fault.
structure Gives (answers : Option (String → String → DigestAnswer)) (x : RunM σ α)
    (answer : Except Fault α) : Prop where
  result : ∀ {s a s'}, s.Recalls answers → x s = .ok a s' → answer = .ok a ∧ Untouched answers s s'

namespace Gives

variable {x : RunM σ α} {f : α → RunM σ β} {y : Except Fault α} {g : α → Except Fault β}

theorem of_pure (a : α) : Gives answers (pure a : RunM σ α) (.ok a) where
  result recalls h := by
    cases h
    exact ⟨rfl, recalls, rfl, rfl⟩

theorem bind (hx : Gives answers x y) (hf : ∀ a, Gives answers (f a) (g a)) :
    Gives answers (x >>= f) (y >>= g) where
  result recalls h := by
    have ⟨a, s₁, ha, hb⟩ := exists_of_bind h
    obtain ⟨rfl, first⟩ := hx.result recalls ha
    have ⟨same, second⟩ := (hf a).result first.recalls hb
    exact ⟨same, second.recalls, second.disk.trans first.disk,
      second.diagnostics.trans first.diagnostics⟩

theorem map (hx : Gives answers x y) (f : α → β) : Gives answers (f <$> x) (f <$> y) := by
  rw [map_eq_pure_bind]
  exact hx.bind fun a => of_pure (f a)

theorem mapM {f : α → RunM σ β} {as : List α} (hf : ∀ a, Gives answers (f a) (g a)) :
    Gives answers (as.mapM f) (as.mapM g) := by
  induction as with
  | nil => exact of_pure []
  | cons a as ih =>
    rw [List.mapM_cons, List.mapM_cons]
    exact (hf a).bind fun b => ih.bind fun bs => of_pure (b :: bs)

theorem ofFault (y : Except Fault α) : Gives answers (RunM.ofFault y : RunM σ α) y where
  result recalls h := by
    rw [RunM.ofFault_apply] at h
    cases y <;> cases h
    exact ⟨rfl, recalls, rfl, rfl⟩

theorem checkpoint : Gives answers (RunM.checkpoint : RunM σ Unit) (.ok ()) where
  result recalls h := by
    obtain ⟨_, rfl⟩ := RunM.checkpoint_eq_ok h
    exact ⟨rfl, recalls, rfl, rfl⟩

theorem digest {answer : String → String → DigestAnswer} (image tag : String) :
    Gives (some answer) (RunM.digest (fun image tag => pure (answer image tag)) image tag : RunM σ _)
      (.ok (answer image tag)) where
  result {s _ s'} recalls h := by
    rw [RunM.digest] at h
    obtain ⟨_, s₁, hc, h⟩ := exists_of_bind h
    have ⟨_, first⟩ := checkpoint.result recalls hc
    simp only [bind_apply, get_apply, DigestCache.resolve] at h
    cases hf : s₁.digests.find? image tag with
    | some digest =>
      rw [hf] at h
      cases h
      exact ⟨congrArg _ (first.recalls answer rfl image tag digest hf), first.recalls, first.disk,
        first.diagnostics⟩
    | none =>
      rw [hf] at h
      cases h
      refine ⟨rfl, ?_, first.disk, first.diagnostics⟩
      intro _ same image' tag' digest' found
      cases same
      change (s₁.digests.remember image tag (answer image tag)).find? image' tag' = some digest' at found
      cases ha : answer image tag with
      | error e =>
        rw [ha] at found
        exact first.recalls answer rfl image' tag' digest' found
      | ok digest =>
        rw [ha] at found
        obtain ⟨rfl, rfl, rfl⟩ | found := DigestCache.find?_insert found
        · exact ha
        · exact first.recalls answer rfl image' tag' digest' found

theorem pinnedVerdict (ha : outside.AnswersBy answers) (c : Candidate) (text : String) :
    Gives answers (Revision.pinnedVerdict (Run.lookup outside) c text)
      (Revision.pinnedVerdict (answers.map fun answer image tag => .ok (answer image tag)) c text) := by
  unfold Revision.pinnedVerdict Run.lookup
  rw [ha]
  cases ImageReference.parse text with
  | error failure => exact of_pure _
  | ok image =>
    cases answers with
    | none => exact of_pure _
    | some answer => exact (digest _ _).map _

theorem verdict {rules : DocumentRules} {channel : Channel} {policy : UpgradePolicy}
    {newline : Newline} (ha : outside.AnswersBy answers) (c : Candidate) :
    Gives answers (Revision.verdict rules channel policy (Run.lookup outside) newline c)
      (Revision.fixedVerdict rules channel policy answers newline c) := by
  unfold Revision.fixedVerdict Revision.verdict
  refine (ofFault _).bind fun d => ?_
  cases d with
  | unchanged | unsupported => exact of_pure _
  | replace text =>
    dsimp only
    split
    case h_1 => exact of_pure _
    case h_2 => exact pinnedVerdict ha c text

end Gives

-- Whether two disks let the same be read from a path.
structure Disk.SameAt (path : String) (d d' : Disk) : Prop where
  entry : d'.find? path = d.find? path
  unreadable : d'.unreadable = d.unreadable

namespace Run

variable {plan : RunPlan} {rules : DocumentRules} {d d' : Disk} {file : String} {files : List String}

-- The change that a category makes in a file of a disk, or would make.
def forecast (plan : RunPlan) (answers : Option (String → String → DigestAnswer)) (rules : DocumentRules)
    (d : Disk) (file : String) : Option FileChange := do
  let source ← (SourceDocument.read plan.readers d (plan.workspace.pathOf file)
    (plan.workspace.display file)).toOption
  let found ←
    (Revision.pass plan.readers rules plan.channel plan.policy answers file source.text).toOption
  let (patch, _) ← found.toOption
  if patch.hasEdits then
    let diff ← (patch.diff file source.text).toOption
    return { path := file, edits := patch.materialize file source.text, written := false, diff }
  else
    none

theorem path_of_forecast {c : FileChange} (h : forecast plan answers rules d file = some c) :
    c.path = file := by
  simp only [forecast, Option.bind_eq_bind, Option.bind_eq_some_iff, Option.pure_def] at h
  obtain ⟨_, _, _, _, _, _, h⟩ := h
  split at h
  case isFalse => cases h
  case isTrue =>
    obtain ⟨_, _, h⟩ := Option.bind_eq_some_iff.mp h
    cases h
    rfl

-- The change in a file whose candidates are known.
theorem forecast_of_candidates {source : SourceDocument} {candidates : List Candidate}
    (read : SourceDocument.read plan.readers d (plan.workspace.pathOf file)
      (plan.workspace.display file) = .ok source)
    (found : Revision.candidates plan.readers rules file source.text = .ok (.ok candidates)) :
    forecast plan answers rules d file = (do
      let verdicts ← (candidates.mapM (Revision.fixedVerdict rules plan.channel plan.policy answers
        (Newline.detect source.text.toList))).toOption
      let patch ← (Revision.patchOf verdicts).toOption
      let _ ← (patch.apply source.text).toOption
      if patch.hasEdits then
        let diff ← (patch.diff file source.text).toOption
        return { path := file, edits := patch.materialize file source.text, written := false, diff }
      else
        none) := by
  simp only [forecast, read, Revision.pass, found, Except.map, ok_bind, toOption_ok, toOption_bind,
    Option.bind_eq_bind, Option.bind_some, Option.bind_assoc]
  rfl

-- A change is a matter of the file that is read.
theorem forecast_congr (h : d.SameAt (plan.workspace.pathOf file) d') :
    forecast plan answers rules d' file = forecast plan answers rules d file := by
  have same (shown : String) :
      (SourceDocument.read plan.readers d' (plan.workspace.pathOf file) shown).toOption
        = (SourceDocument.read plan.readers d (plan.workspace.pathOf file) shown).toOption := by
    unfold SourceDocument.read Disk.read
    rw [h.entry, h.unreadable]
    cases d.unreadable.lookup (plan.workspace.pathOf file) with
    | some cause => rfl
    | none =>
      cases d.find? (plan.workspace.pathOf file) with
      | none => rfl
      | some entry => cases entry <;> rfl
  rw [forecast, same]
  rfl

-- The changes that a category makes in files of a disk, or would make.
def forecasts (plan : RunPlan) (answers : Option (String → String → DigestAnswer))
    (rules : DocumentRules) (d : Disk) (files : List String) : List FileChange :=
  if rules.appliesTo plan.channel then files.filterMap (forecast plan answers rules d) else []

-- A run that is told of no file that could not be written; a dry one writes none.
def Fine (plan : RunPlan) (s : RunState σ) : Prop :=
  plan.dryRun = false → ∀ d ∈ s.diagnostics, d.stage ≠ .write

-- Nothing that was told is taken back, so what is missing at the end of a run was never told.
theorem Fine.before {kind : Event → Prop} {x : Collaborators σ → RunM σ α} {a : α}
    (course : HasCourse outside.registry.isSome kind x) (h : x outside s = .ok a s')
    (fine : Fine plan s') : Fine plan s := by
  intro dry d hd
  have ⟨more, kept, _⟩ := course.told s
  rw [h] at kept
  exact fine dry d (kept ▸ List.mem_append_left more hd)

-- A change as a run reports it.
def reported (plan : RunPlan) (c : FileChange) : FileChange :=
  { c with written := !plan.dryRun }

-- A part of a category that made given changes, or told of them: they are reported, and a run that is no
-- dry one has left all other files as they were.
structure Follows (plan : RunPlan) (answers : Option (String → String → DigestAnswer))
    (changes : List FileChange) (p : Progress) (s : RunState σ) (p' : Progress) (s' : RunState σ) :
    Prop where
  recorded : p'.report.changes = p.report.changes ++ changes.map (reported plan)
  name : p'.report.name = p.report.name
  recalls : s'.Recalls answers
  others : ∀ path, (plan.dryRun = false → ∀ c ∈ changes, path ≠ plan.workspace.pathOf c.path) →
    s.world.disk.SameAt path s'.world.disk

variable {p p' p'' : Progress} {changes changes' : List FileChange} {source : SourceDocument}

-- A part that changed nothing.
theorem Follows.of_same (changes : p'.report.changes = p.report.changes)
    (name : p'.report.name = p.report.name) (recalls : s'.Recalls answers)
    (disk : s'.world.disk = s.world.disk) : Follows plan answers [] p s p' s' where
  recorded := by rw [changes, List.map_nil, List.append_nil]
  name
  recalls
  others _ _ := ⟨by rw [disk], by rw [disk]⟩

theorem Follows.trans (h : Follows plan answers changes p s p' s')
    (h' : Follows plan answers changes' p' s' p'' s'') :
    Follows plan answers (changes ++ changes') p s p'' s'' where
  recorded := by rw [h'.recorded, h.recorded, List.map_append, List.append_assoc]
  name := h'.name.trans h.name
  recalls := h'.recalls
  others path others := by
    have first := h.others path fun dry c hc => others dry c (List.mem_append_left _ hc)
    have second := h'.others path fun dry c hc => others dry c (List.mem_append_right _ hc)
    exact ⟨second.entry.trans first.entry, second.unreadable.trans first.unreadable⟩

-- While the registry always answers the same, its answers make the verdicts.
theorem Weighed.gives {found : List (Candidate × Verdict)} {patch : PatchSet} {w : RunState σ}
    (h : Weighed plan outside rules file s source found patch w) (ha : outside.AnswersBy answers)
    (recalls : s.Recalls answers) :
    (found.map Prod.fst).mapM (Revision.fixedVerdict rules plan.channel plan.policy answers
      source.metadata.newline) = .ok (found.map Prod.snd) ∧ Untouched answers s w := by
  have ⟨s₁, checked, judged⟩ := h.judged
  have ⟨_, first⟩ := (Gives.checkpoint (σ := σ)).result recalls checked
  have verdicts : Gives answers ((found.map Prod.fst).mapM (Revision.verdict rules plan.channel
      plan.policy (lookup outside) source.metadata.newline)) _ := .mapM (.verdict ha)
  have ⟨same, second⟩ := verdicts.result first.recalls judged
  exact ⟨same, second.recalls, second.disk.trans first.disk,
    second.diagnostics.trans first.diagnostics⟩

theorem Weighed.forecast {found : List (Candidate × Verdict)} {patch : PatchSet} {w : RunState σ}
    (h : Weighed plan outside rules file s source found patch w) (ha : outside.AnswersBy answers)
    (recalls : s.Recalls answers) : forecast plan answers rules s.world.disk file = (do
      let _ ← (patch.apply source.text).toOption
      if patch.hasEdits then
        let diff ← (patch.diff file source.text).toOption
        return { path := file, edits := patch.materialize file source.text, written := false, diff }
      else
        none) := by
  have ⟨verdicts, _⟩ := h.gives ha recalls
  have ⟨read, candidates⟩ := examine_eq_ok_iff.mp h.examined
  obtain ⟨bytes, _, decoded, _⟩ := SourceDocument.exists_of_read read
  have ⟨_, newline, _⟩ := FileMetadata.decode?_eq_some_iff.mp decoded
  rw [newline] at verdicts
  rw [forecast_of_candidates read candidates]
  simp only [verdicts, h.patched, toOption_ok, Option.bind_eq_bind, Option.bind_some]

theorem reviseFile_follows (ha : outside.AnswersBy answers) (recalls : s.Recalls answers)
    (fine : Fine plan s') (h : reviseFile plan outside rules p file s = .ok p' s') :
    Follows plan answers (forecast plan answers rules s.world.disk file).toList p s p' s' := by
  cases reviseFile_ends h with
  | unread checked unread =>
    obtain ⟨_, untouched⟩ := (Gives.checkpoint (σ := σ)).result recalls checked
    have none : forecast plan answers rules s.world.disk file = none := by
      rw [examine] at unread
      rcases bind_eq_error.mp unread with read | ⟨source, read, h⟩
      case inl =>
        rw [forecast, read]
        rfl
      case inr =>
        rcases bind_eq_error.mp h with malformed | ⟨_, _, h⟩
        case inr => cases h
        case inl =>
          obtain ⟨_, malformed, _⟩ := mapError_eq_error.mp malformed
          simp only [forecast, read, toOption_ok, Option.bind_eq_bind, Option.bind_some, Revision.pass,
            malformed]
          rfl
    rw [none]
    exact .of_same rfl rfl untouched.recalls untouched.disk
  | current weighed current =>
    obtain ⟨_, untouched⟩ := weighed.gives ha recalls
    have none : forecast plan answers rules s.world.disk file = none := by
      simp [weighed.forecast ha recalls, current]
    rw [none]
    exact .of_same rfl rfl untouched.recalls untouched.disk
  | @changed source found patch w text diff disk weighed edits applied told put =>
    obtain ⟨_, untouched⟩ := weighed.gives ha recalls
    have read := (examine_eq_ok_iff.mp weighed.examined).1
    obtain ⟨_, _, _, path, _⟩ := SourceDocument.exists_of_read read
    rw [weighed.forecast ha recalls, applied, told, if_pos edits]
    refine ⟨rfl, rfl, untouched.recalls, fun other others => ?_⟩
    rw [untouched.disk] at put
    rcases putBack_eq_ok put with ⟨_, rfl⟩ | ⟨wet, rfl⟩
    case inl => exact ⟨rfl, rfl⟩
    case inr =>
      have ne : other ≠ source.path := path ▸ others wet _ List.mem_cons_self
      exact ⟨Disk.find?_insert_of_ne _ _ ne, rfl⟩
  | @blocked source found patch w text diff e weighed edits applied told put =>
    have wet := putBack_eq_error put
    exact absurd rfl (fine wet ⟨.error, rules.info.name, some file, .write, e.message⟩ (by simp))

theorem foldlM_reviseFile_follows (ha : outside.AnswersBy answers) (distinct : files.Nodup)
    (recalls : s.Recalls answers) (fine : Fine plan s')
    (h : files.foldlM (reviseFile plan outside rules) p s = .ok p' s') :
    Follows plan answers (files.filterMap (forecast plan answers rules s.world.disk)) p s p' s' := by
  induction files generalizing p s with
  | nil =>
    cases h
    exact .of_same rfl rfl recalls rfl
  | cons file files ih =>
    rw [List.foldlM_cons] at h
    obtain ⟨q, s₁, hs, h⟩ := exists_of_bind h
    have ⟨fresh, distinct⟩ := List.nodup_cons.mp distinct
    have later : HasCourse outside.registry.isSome (fun _ => True) fun outside : Collaborators σ =>
        files.foldlM (reviseFile plan outside rules) q := .foldlM_reviseFile (.any plan _)
    have first := reviseFile_follows ha recalls (.before later h fine) hs
    have rest := ih distinct first.recalls h
    -- The step before left the other files alone, so their changes are the same.
    have same : files.filterMap (forecast plan answers rules s₁.world.disk)
        = files.filterMap (forecast plan answers rules s.world.disk) := by
      refine List.filterMap_congr fun other listed => forecast_congr ?_
      refine first.others _ fun _ c hc path => fresh ?_
      rw [← path_of_forecast (Option.mem_toList.mp hc), ← pathOf_inj.mp path]
      exact listed
    have all := first.trans (same ▸ rest)
    cases hf : forecast plan answers rules s.world.disk file <;> simpa [hf] using all

-- A category that comes to its end has made the changes that follow from its files.
theorem reviseFiles_follows {report : CategoryReport} (ha : outside.AnswersBy answers)
    (distinct : files.Nodup) (recalls : s.Recalls answers) (fine : Fine plan s')
    (h : reviseFiles plan outside rules files s = .ok report s') :
    Follows plan answers (forecasts plan answers rules s.world.disk files)
      { report := { name := rules.info.name } } s { report } s' := by
  unfold reviseFiles at h
  unfold forecasts
  split at h
  case isFalse none =>
    cases h
    rw [if_neg none]
    exact .of_same rfl rfl recalls rfl
  case isTrue applies =>
    rw [if_pos applies]
    obtain ⟨p, s₁, hs, h⟩ := exists_of_bind h
    dsimp only at h
    split at h <;> cases h
    all_goals
      have follows := foldlM_reviseFile_follows ha distinct recalls fine hs
      exact ⟨follows.recorded, follows.name, follows.recalls, follows.others⟩

end Run
end Repin
