import Repin.Proofs.Run.Conduct
import Repin.Proofs.Run.Step
/-!
# How steps end

A step that comes to its end tells why it could not read its file, or it carries out what follows from
its verdicts. What it adds to the report of its category and to the diagnostics is known in each case.
Main statement: `reviseFile_ends`.
-/
namespace Repin

variable {σ α β : Type}

theorem forall₂_of_mapM {f : α → RunM σ β} {P : α → β → Prop} {as : List α} {bs : List β}
    {s s' : RunState σ} (each : ∀ {a b s s'}, f a s = .ok b s' → P a b) (h : as.mapM f s = .ok bs s') :
    List.Forall₂ P as bs := by
  induction as generalizing bs s with
  | nil =>
    cases h
    exact .nil
  | cons a as ih =>
    rw [List.mapM_cons] at h
    obtain ⟨b, s₁, first, h⟩ := exists_of_bind h
    obtain ⟨bs, s₂, rest, h⟩ := exists_of_bind h
    cases h
    exact .cons (each first) (ih rest)

theorem length_of_mapM {f : α → RunM σ β} {as : List α} {bs : List β} {s s' : RunState σ}
    (h : as.mapM f s = .ok bs s') : bs.length = as.length :=
  (forall₂_of_mapM (P := fun _ _ => True) (fun _ => trivial) h).length_eq.symm

namespace Run

variable {plan : RunPlan} {outside : Collaborators σ} {rules : DocumentRules} {file : String}
variable {p p' : Progress} {s s' : RunState σ} {source : SourceDocument}

-- What is told about the verdicts on the candidates of a file.
def noticesOf (plan : RunPlan) (rules : DocumentRules) (file : String) (p : Progress)
    (found : List (Candidate × Verdict)) : List Diagnostic :=
  (Revision.notices plan.channel p.explained found).map
    (⟨.warning, rules.info.name, some file, .decide, ·⟩)

-- The category after it was told why candidates are gated, if some are.
def Progress.explaining (p : Progress) (verdicts : List Verdict) : Progress :=
  { p with explained := p.explained || verdicts.contains .gated }

section progress

variable {outcome : Severity} {change : FileChange} {verdicts : List Verdict}

@[simp]
theorem Progress.scanned_outcome :
    (p.scanned outcome).report.outcome = p.report.outcome.worse outcome := rfl

@[simp]
theorem Progress.scanned_changes : (p.scanned outcome).report.changes = p.report.changes := rfl

@[simp]
theorem Progress.changed_changes : (p.changed change).report.changes = p.report.changes ++ [change] := rfl

@[simp]
theorem Progress.changed_outcome : (p.changed change).report.outcome = p.report.outcome := rfl

@[simp]
theorem Progress.explaining_report : (p.explaining verdicts).report = p.report := rfl

end progress

-- Puts the new text of a document in its place, unless the run is a dry one.
def putBack (plan : RunPlan) (source : SourceDocument) (text : String) :
    EStateM DocumentError Disk Unit :=
  if plan.dryRun then pure () else source.writeBack plan.readers text

theorem putBack_eq_ok {text : String} {d d' : Disk} (h : putBack plan source text d = .ok () d') :
    (plan.dryRun ∧ d' = d) ∨
      (plan.dryRun = false ∧ d' = d.insert source.path (.file (source.metadata.encode text))) := by
  unfold putBack at h
  split at h
  case isTrue dry =>
    cases h
    exact .inl ⟨dry, rfl⟩
  case isFalse wet =>
    rcases source.writeBack_cases plan.readers text d with ⟨_, _, _, hw⟩ | ⟨e, _, hw⟩
    case inl =>
      cases h.symm.trans hw
      exact .inr ⟨by simpa using wet, rfl⟩
    case inr => cases h.symm.trans hw

theorem putBack_eq_error {text : String} {d d' : Disk} {e : DocumentError}
    (h : putBack plan source text d = .error e d') : plan.dryRun = false := by
  unfold putBack at h
  split at h
  case isTrue => cases h
  case isFalse wet => simpa using wet

-- The step has read its file and has a verdict on each candidate in it, and the patch that follows.
structure Weighed (plan : RunPlan) (outside : Collaborators σ) (rules : DocumentRules) (file : String)
    (s : RunState σ) (source : SourceDocument) (found : List (Candidate × Verdict)) (patch : PatchSet)
    (w : RunState σ) : Prop where
  examined : examine plan rules s.world.disk file = .ok (source, .ok (found.map Prod.fst))
  judged : ∃ s₁, RunM.checkpoint s = .ok () s₁ ∧
    (found.map Prod.fst).mapM (Revision.verdict rules plan.channel plan.policy (lookup outside)
      source.metadata.newline) s₁ = .ok (found.map Prod.snd) w
  patched : Revision.patchOf (found.map Prod.snd) = .ok patch

-- How a step that comes to its end has gone.
inductive Ends (plan : RunPlan) (outside : Collaborators σ) (rules : DocumentRules) (file : String)
    (p : Progress) (s : RunState σ) : Progress → RunState σ → Prop where
  | unread {e : DocumentError} {s₁ : RunState σ} :
    RunM.checkpoint s = .ok () s₁ → examine plan rules s.world.disk file = .error e →
      Ends plan outside rules file p s (p.scanned .warning)
        (s₁.telling [⟨.warning, rules.info.name, some file, .parse, e.message⟩])
  | current {source : SourceDocument} {found : List (Candidate × Verdict)} {patch : PatchSet}
      {w : RunState σ} :
    Weighed plan outside rules file s source found patch w → patch.hasEdits = false →
      Ends plan outside rules file p s
        ((p.explaining (found.map Prod.snd)).scanned (Revision.severityOf (found.map Prod.snd)))
        (w.telling (noticesOf plan rules file p found))
  | changed {source : SourceDocument} {found : List (Candidate × Verdict)} {patch : PatchSet}
      {w : RunState σ} {text diff : String} {disk : Disk} :
    Weighed plan outside rules file s source found patch w → patch.hasEdits →
    patch.apply source.text = .ok text → patch.diff file source.text = .ok diff →
    putBack plan source text w.world.disk = .ok () disk →
      Ends plan outside rules file p s
        (((p.explaining (found.map Prod.snd)).changed
          ⟨file, patch.materialize file source.text, !plan.dryRun, diff⟩).scanned
            ((Revision.severityOf (found.map Prod.snd)).worse .success))
        ({ w with world := { w.world with disk } }.telling (noticesOf plan rules file p found))
  | blocked {source : SourceDocument} {found : List (Candidate × Verdict)} {patch : PatchSet}
      {w : RunState σ} {text diff : String} {e : DocumentError} :
    Weighed plan outside rules file s source found patch w → patch.hasEdits →
    patch.apply source.text = .ok text → patch.diff file source.text = .ok diff →
    putBack plan source text w.world.disk = .error e w.world.disk →
      Ends plan outside rules file p s ((p.explaining (found.map Prod.snd)).scanned .error)
        (w.telling (noticesOf plan rules file p found
          ++ [⟨.error, rules.info.name, some file, .write, e.message⟩]))

-- Verdicts are given without a word.
theorem Weighed.diagnostics {found : List (Candidate × Verdict)} {patch : PatchSet} {w : RunState σ}
    (h : Weighed plan outside rules file s source found patch w) : w.diagnostics = s.diagnostics := by
  have ⟨s₁, checked, judged⟩ := h.judged
  have silent : HasCourse outside.registry.isSome (fun e => ∀ d, e ≠ .told d)
      fun outside : Collaborators σ => RunM.checkpoint >>= fun _ =>
        (found.map Prod.fst).mapM (Revision.verdict rules plan.channel plan.policy (lookup outside)
          source.metadata.newline) :=
    (HasCourse.checkpoint (by simp)).bind fun _ => .mapM fun c => .verdict (by simp) (by simp) (by simp) c
  have same := silent.untold (fun d h => h d rfl) s
  rw [bind_apply, checked] at same
  dsimp only at same
  rwa [judged] at same

theorem carryOut_ends {q : Progress} {found : List (Candidate × Verdict)} {patch : PatchSet}
    {w : RunState σ} (weighed : Weighed plan outside rules file s source found patch w)
    (edits : patch.hasEdits) (hq : q = p.explaining (found.map Prod.snd))
    (h : carryOut plan rules.info.name file source patch (Revision.severityOf (found.map Prod.snd)) q
      (w.telling (noticesOf plan rules file p found)) = .ok p' s') :
    Ends plan outside rules file p s p' s' := by
  subst hq
  unfold carryOut at h
  obtain ⟨text, applied, h⟩ := RunM.exists_of_ofFault_bind h
  obtain ⟨diff, told, h⟩ := RunM.exists_of_ofFault_bind h
  dsimp only at h
  split at h
  case isTrue dry =>
    cases h
    exact .changed weighed edits applied told (by rw [putBack, if_pos dry]; rfl)
  case isFalse wet =>
    have put : putBack plan source text = source.writeBack plan.readers text := if_neg wet
    rw [bind_apply, writeBack, RunM.ask_apply, RunState.telling_world] at h
    rcases source.writeBack_cases plan.readers text w.world.disk with ⟨_, _, _, hw⟩ | ⟨e, _, hw⟩
    case inl =>
      rw [hw] at h
      cases h
      exact .changed weighed edits applied told (put ▸ hw)
    case inr =>
      rw [hw] at h
      cases h
      have all := Ends.blocked (p := p) weighed edits applied told (put ▸ hw)
      rwa [← RunState.telling_telling] at all

-- A step that comes to its end has gone in one of these ways.
theorem reviseFile_ends (h : reviseFile plan outside rules p file s = .ok p' s') :
    Ends plan outside rules file p s p' s' := by
  rw [reviseFile_eq] at h
  obtain ⟨_, s₁, checked, h⟩ := exists_of_bind h
  simp only [bind_apply, get_apply, disk_of_checkpoint checked] at h
  cases examined : examine plan rules s.world.disk file with
  | error e =>
    rw [examined] at h
    cases h
    exact .unread checked examined
  | ok read =>
    obtain ⟨source, candidates⟩ := read
    simp only [examined, handle] at h
    obtain ⟨candidates, same, judges⟩ := RunM.exists_of_ofFault_bind h
    subst same
    unfold judge at judges
    obtain ⟨verdicts, w, judged, h⟩ := exists_of_bind judges
    rw [bind_apply, forM_diagnoseFile] at h
    obtain ⟨patch, patched, h⟩ := RunM.exists_of_ofFault_bind h
    obtain ⟨found, first, second⟩ : ∃ found : List (Candidate × Verdict),
        found.map Prod.fst = candidates ∧ found.map Prod.snd = verdicts := by
      have long := length_of_mapM judged
      exact ⟨candidates.zip verdicts, List.map_fst_zip (Nat.le_of_eq long.symm),
        List.map_snd_zip (Nat.le_of_eq long)⟩
    subst first second
    have weighed : Weighed plan outside rules file s source found patch w :=
      ⟨examined, ⟨s₁, checked, judged⟩, patched⟩
    have pairs : (found.map Prod.fst).zip (found.map Prod.snd) = found :=
      (List.zip_of_prod rfl rfl).symm
    rw [pairs] at h
    split at h
    case isTrue edits => exact carryOut_ends weighed edits rfl h
    case isFalse current =>
      cases h
      exact .current weighed (by simpa using current)

end Run
end Repin
