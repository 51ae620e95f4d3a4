import Mathlib.Logic.Basic
import Repin.Proofs.Document.Source
import Repin.Proofs.Except
import Repin.Proofs.Patch.Replay
import Repin.Proofs.Run.Asking
import Repin.Readers.Standard
import Repin.Upgrader.Documents
/-!
# What the step of a file does

Unless the run is a dry one, a step either leaves its file alone and records nothing, or it writes the
file and records the change. Main statement: `reviseFile_leaves_or_writes`.
-/
namespace Repin

variable {σ : Type}

-- The state after some more was told.
def RunState.telling (s : RunState σ) (ds : List Diagnostic) : RunState σ :=
  { s with diagnostics := s.diagnostics ++ ds }

@[simp]
theorem RunState.telling_world {s : RunState σ} {ds : List Diagnostic} :
    (s.telling ds).world = s.world := rfl

@[simp]
theorem RunState.telling_diagnostics {s : RunState σ} {ds : List Diagnostic} :
    (s.telling ds).diagnostics = s.diagnostics ++ ds := rfl

theorem RunState.telling_telling {s : RunState σ} {ds ds' : List Diagnostic} :
    (s.telling ds).telling ds' = s.telling (ds ++ ds') := by
  simp [telling]

namespace Run

variable {plan : RunPlan} {outside : Collaborators σ} {rules : DocumentRules}
variable {file : String} {p : Progress} {s s' : RunState σ} {source : SourceDocument}
variable {verdicts : List Verdict} {patch : PatchSet}

-- How a step ends.
abbrev StepResult (σ : Type) := EStateM.Result RunStop (RunState σ) Progress

-- The step has read its file and has a verdict on each candidate in it.
structure Judged (plan : RunPlan) (outside : Collaborators σ) (rules : DocumentRules) (file : String)
    (s : RunState σ) (source : SourceDocument) (verdicts : List Verdict) (s' : RunState σ) : Prop where
  read : SourceDocument.read plan.readers s.world.disk (plan.workspace.pathOf file)
      (plan.workspace.display file)
    = .ok source
  judged : ∃ candidates s₁,
    Revision.candidates plan.readers rules file source.text = .ok (.ok candidates) ∧
    RunM.checkpoint s = .ok () s₁ ∧
    candidates.mapM (Revision.verdict rules plan.channel plan.policy (lookup outside)
      source.metadata.newline) s₁ = .ok verdicts s'

-- A patch that cannot be carried out on its text.
def IsFaulty (verdicts : List Verdict) (file : String) (source : SourceDocument) (f : Fault) : Prop :=
  Revision.patchOf verdicts = .error f ∨ ∃ patch, Revision.patchOf verdicts = .ok patch ∧
    (patch.apply source.text = .error f ∨ patch.diff file source.text = .error f)

-- Why a step ends without having written its file.
inductive IsHindered (plan : RunPlan) (outside : Collaborators σ) (rules : DocumentRules)
    (file : String) (s : RunState σ) : StepResult σ → Prop where
  | cancelled {s' : RunState σ} :
    s'.world.cancellation.isDue → IsHindered plan outside rules file s (.error (.failed .cancelled) s')
  | unread {e : DocumentError} {p' : Progress} {s' : RunState σ} :
    SourceDocument.read plan.readers s.world.disk (plan.workspace.pathOf file)
        (plan.workspace.display file)
      = .error e → IsHindered plan outside rules file s (.ok p' s')
  | malformed {source : SourceDocument} {e : SyntaxError} {p' : Progress} {s' : RunState σ} :
    SourceDocument.read plan.readers s.world.disk (plan.workspace.pathOf file)
        (plan.workspace.display file)
      = .ok source → Revision.candidates plan.readers rules file source.text = .error e →
        IsHindered plan outside rules file s (.ok p' s')
  | unfound {source : SourceDocument} {f : Fault} {s' : RunState σ} :
    SourceDocument.read plan.readers s.world.disk (plan.workspace.pathOf file)
        (plan.workspace.display file)
      = .ok source → Revision.candidates plan.readers rules file source.text = .ok (.error f) →
        IsHindered plan outside rules file s (.error (.fault f) s')
  | undecided {source : SourceDocument} {candidates : List Candidate} {c : Candidate} {f : Fault}
      {s' : RunState σ} :
    SourceDocument.read plan.readers s.world.disk (plan.workspace.pathOf file)
        (plan.workspace.display file)
      = .ok source → Revision.candidates plan.readers rules file source.text = .ok (.ok candidates) →
        c ∈ candidates →
          Decision.of c.token plan.channel plan.policy source.metadata.newline = .error f →
            IsHindered plan outside rules file s (.error (.fault f) s')
  | faulty {source : SourceDocument} {verdicts : List Verdict} {w : RunState σ} {f : Fault}
      {s' : RunState σ} :
    Judged plan outside rules file s source verdicts w → IsFaulty verdicts file source f →
      IsHindered plan outside rules file s (.error (.fault f) s')
  | current {source : SourceDocument} {verdicts : List Verdict} {w : RunState σ} {p' : Progress}
      {s' : RunState σ} :
    Judged plan outside rules file s source verdicts w → verdicts.filterMap Verdict.edit? = [] →
      IsHindered plan outside rules file s (.ok p' s')
  | blocked {source : SourceDocument} {verdicts : List Verdict} {w : RunState σ} {e : DocumentError}
      {p' : Progress} {s' : RunState σ} :
    Judged plan outside rules file s source verdicts w → source.IsBlocked plan.readers w.world.disk e →
      IsHindered plan outside rules file s (.ok p' s')

-- A step that was hindered: only the registry may have changed the world, and no change is recorded.
structure Left (plan : RunPlan) (outside : Collaborators σ) (rules : DocumentRules) (file : String)
    (p : Progress) (s : RunState σ) (r : StepResult σ) : Prop where
  hindered : IsHindered plan outside rules file s r
  attends : Attends outside s.world (RunM.final r).world
  unchanged : ∀ path, outside.Spares path →
    (RunM.final r).world.disk.find? path = s.world.disk.find? path
  unrecorded : ∀ {p' s'}, r = .ok p' s' → p'.report.changes = p.report.changes

-- A step that wrote its file, with the state before it did so, the change that is recorded and the
-- new text.
structure Writes (plan : RunPlan) (outside : Collaborators σ) (rules : DocumentRules) (file : String)
    (p : Progress) (s : RunState σ) (p' : Progress) (s' : RunState σ) (source : SourceDocument)
    (w : RunState σ) (change : FileChange) (text : String) : Prop where
  judged : ∃ verdicts, Judged plan outside rules file s source verdicts w ∧
    verdicts.filterMap Verdict.edit? ≠ []
  attends : Attends outside s.world w.world
  writeBack : source.writeBack plan.readers text w.world.disk = .ok () s'.world.disk
  recorded : p'.report.changes = p.report.changes ++ [change]
  path : change.path = file
  written : change.written
  replay : Replay 0 source.text.toList change.edits text.toList
  bytes : s'.world.disk.find? (plan.workspace.pathOf file)
    = some (.file (source.metadata.encode text))
  others : ∀ other, other ≠ plan.workspace.pathOf file →
    s'.world.disk.find? other = w.world.disk.find? other

-- A step that wrote its file.
def Written (plan : RunPlan) (outside : Collaborators σ) (rules : DocumentRules) (file : String)
    (p : Progress) (s : RunState σ) (r : StepResult σ) : Prop :=
  ∃ p' s' source w change text, r = .ok p' s' ∧
    Writes plan outside rules file p s p' s' source w change text

theorem Left.of_error {stop : RunStop}
    (hindered : IsHindered plan outside rules file s (.error stop s'))
    (attends : Attends outside s.world s'.world) :
    Left plan outside rules file p s (.error stop s') where
  hindered
  attends
  unchanged _ spares := attends.find?_eq spares
  unrecorded h := by cases h

theorem Left.of_ok {p' : Progress} (hindered : IsHindered plan outside rules file s (.ok p' s'))
    (attends : Attends outside s.world s'.world) (same : p'.report.changes = p.report.changes) :
    Left plan outside rules file p s (.ok p' s') where
  hindered
  attends
  unchanged _ spares := attends.find?_eq spares
  unrecorded h := by
    cases h
    exact same

theorem not_left_of_written {r : StepResult σ} (h : Written plan outside rules file p s r) :
    ¬Left plan outside rules file p s r := by
  intro left
  obtain ⟨p', s', source, w, change, text, rfl, writes⟩ := h
  have same := left.unrecorded rfl
  rw [writes.recorded] at same
  simp at same

theorem forM_diagnoseFile (messages : List String) (level : Severity) (category : String)
    (stage : Stage) (s : RunState σ) :
    messages.forM (diagnoseFile level category file stage) s
      = .ok () (s.telling (messages.map (⟨level, category, some file, stage, ·⟩))) := by
  induction messages generalizing s with
  | nil =>
    change _ = EStateM.Result.ok () { s with diagnostics := s.diagnostics ++ [] }
    rw [List.append_nil]
    rfl
  | cons message messages ih =>
    have rest := ih (s.telling [⟨level, category, some file, stage, message⟩])
    rwa [RunState.telling_telling] at rest

theorem filterMap_edit?_ne_nil (hp : Revision.patchOf verdicts = .ok patch) :
    patch.hasEdits ↔ verdicts.filterMap Verdict.edit? ≠ [] := by
  have perm := PatchSet.perm_of_ofUnordered hp
  rw [PatchSet.hasEdits, Bool.not_eq_true', List.isEmpty_eq_false_iff]
  rw [Ne, Ne, ← List.length_eq_zero_iff, ← List.length_eq_zero_iff, perm.length_eq]

theorem writeBack_apply (readers : Readers) (source : SourceDocument) (text : String)
    (s : RunState σ) :
    (∃ e, source.IsBlocked readers s.world.disk e ∧
      writeBack readers source text s = .ok (.error e) s) ∨
    ∃ disk, source.writeBack readers text s.world.disk = .ok () disk ∧
      disk = s.world.disk.insert source.path (.file (source.metadata.encode text)) ∧
        writeBack readers source text s
          = .ok (.ok ()) { s with world := { s.world with disk } } := by
  unfold writeBack
  rw [RunM.ask_apply]
  rcases source.writeBack_cases readers text s.world.disk with ⟨_, _, _, ok⟩ | ⟨e, blocked, error⟩
  case inl => exact .inr ⟨_, ok, rfl, by simp [ok]⟩
  case inr => exact .inl ⟨e, blocked, by simp [error]⟩

theorem Writes.of_apply {q : Progress} {w : RunState σ} {severity : Severity} {text diff : String}
    {disk : Disk} (unrecorded : q.report = p.report)
    (judged : Judged plan outside rules file s source verdicts w)
    (attends : Attends outside s.world w.world) (hp : Revision.patchOf verdicts = .ok patch)
    (edits : patch.hasEdits) (ha : patch.apply source.text = .ok text)
    (hw : source.writeBack plan.readers text w.world.disk = .ok () disk)
    (heq : disk = w.world.disk.insert source.path (.file (source.metadata.encode text)))
    (hd : s'.world.disk = disk) :
    Writes plan outside rules file p s
      ((q.changed ⟨file, patch.materialize file source.text, true, diff⟩).scanned severity) s' source w
      ⟨file, patch.materialize file source.text, true, diff⟩ text := by
  obtain ⟨_, _, _, path, _⟩ := SourceDocument.exists_of_read judged.read
  rw [path] at heq
  exact {
    judged := ⟨verdicts, judged, (filterMap_edit?_ne_nil hp).mp edits⟩
    attends
    writeBack := hd ▸ hw
    recorded := unrecorded ▸ rfl
    path := rfl
    written := rfl
    replay := .of_splice file (PatchSet.apply_eq_ok_iff.mp ha)
    bytes := by simp [hd, heq]
    others := fun other ne => by rw [hd, heq, Disk.find?_insert_of_ne _ _ ne] }

theorem carryOut_leaves_or_writes {q : Progress} {w : RunState σ} {severity : Severity}
    (dry : plan.dryRun = false) (unrecorded : q.report = p.report)
    (judged : Judged plan outside rules file s source verdicts w)
    (attends : Attends outside s.world w.world) (hp : Revision.patchOf verdicts = .ok patch)
    (edits : patch.hasEdits) (same : s'.world = w.world) :
    Left plan outside rules file p s
      (carryOut plan rules.info.name file source patch severity q s') ∨
    Written plan outside rules file p s
      (carryOut plan rules.info.name file source patch severity q s') := by
  have reached : Attends outside s.world s'.world := same ▸ attends
  unfold carryOut
  simp only [dry, bind_apply, RunM.ofFault_apply]
  cases ha : patch.apply source.text with
  | error f => exact .inl (.of_error (.faulty judged (.inr ⟨patch, hp, .inl ha⟩)) reached)
  | ok text =>
    cases hd : patch.diff file source.text with
    | error f => exact .inl (.of_error (.faulty judged (.inr ⟨patch, hp, .inr hd⟩)) reached)
    | ok diff =>
      simp only [Bool.false_eq_true, if_false, bind_apply]
      rcases writeBack_apply plan.readers source text s' with ⟨e, blocked, hw⟩ | ⟨disk, ok, heq, hw⟩
      case inl =>
        rw [hw]
        rw [same] at blocked
        refine .inl (.of_ok (.blocked judged blocked) reached ?_)
        rw [← unrecorded]
        rfl
      case inr =>
        rw [hw]
        rw [same] at ok heq
        have kept : ({ s' with world := { s'.world with disk } } : RunState σ).world.disk = disk := rfl
        exact .inr ⟨_, _, source, w, _, text, rfl,
          .of_apply unrecorded judged attends hp edits ha ok heq kept⟩

theorem judge_leaves_or_writes {candidates : List Candidate} (dry : plan.dryRun = false)
    (read : SourceDocument.read plan.readers s.world.disk (plan.workspace.pathOf file)
      (plan.workspace.display file) = .ok source)
    (found : Revision.candidates plan.readers rules file source.text = .ok (.ok candidates))
    (checked : RunM.checkpoint s = .ok () s') (attends : Attends outside s.world s'.world) :
    Left plan outside rules file p s (judge plan outside rules file source candidates p s') ∨
    Written plan outside rules file p s (judge plan outside rules file source candidates p s') := by
  have asks : OnlyAsks outside (fun f => ∃ c ∈ candidates,
        Decision.of c.token plan.channel plan.policy source.metadata.newline = .error f)
      (candidates.mapM (Revision.verdict rules plan.channel plan.policy (lookup outside)
        source.metadata.newline)) :=
    .mapM fun c hc => (OnlyAsks.verdict c).mono fun _ hf => ⟨c, hc, hf⟩
  have reached := attends.trans (asks.attends s')
  unfold judge
  rw [bind_apply]
  cases hm : candidates.mapM (Revision.verdict rules plan.channel plan.policy (lookup outside)
      source.metadata.newline) s' with
  | error stop s₁ =>
    rw [hm] at reached
    obtain ⟨rfl, due⟩ | ⟨f, ⟨c, hc, undecided⟩, rfl⟩ := asks.stopped hm
    case inl => exact .inl (.of_error (.cancelled due) reached)
    case inr => exact .inl (.of_error (.undecided read found hc undecided) reached)
  | ok verdicts w =>
    have judged : Judged plan outside rules file s source verdicts w :=
      ⟨read, candidates, s', found, checked, hm⟩
    rw [hm] at reached
    simp only [bind_apply, forM_diagnoseFile, RunM.ofFault_apply]
    cases hp : Revision.patchOf verdicts with
    | error f => exact .inl (.of_error (.faulty judged (.inl hp)) reached)
    | ok patch =>
      by_cases edits : patch.hasEdits
      case pos =>
        simp only [edits, if_true]
        exact carryOut_leaves_or_writes dry rfl judged reached hp edits rfl
      case neg =>
        have none := not_not.mp ((not_congr (filterMap_edit?_ne_nil hp)).mp edits)
        simp only [edits]
        exact .inl (.of_ok (.current judged none) reached rfl)

theorem disk_of_checkpoint {s s' : RunState σ} (h : RunM.checkpoint s = .ok () s') :
    s'.world.disk = s.world.disk := by
  rw [(RunM.checkpoint_eq_ok h).2]
  rfl

theorem reviseFile_cases (dry : plan.dryRun = false) (p : Progress) (s : RunState σ) :
    Left plan outside rules file p s (reviseFile plan outside rules p file s) ∨
    Written plan outside rules file p s (reviseFile plan outside rules p file s) := by
  have asks : OnlyAsks outside (fun _ => False) (RunM.checkpoint : RunM σ Unit) := .checkpoint
  have reached := asks.attends s
  unfold reviseFile
  rw [bind_apply]
  cases hc : RunM.checkpoint s with
  | error stop s' =>
    rw [hc] at reached
    obtain ⟨rfl, due⟩ | ⟨_, ⟨⟩, _⟩ := asks.stopped hc
    exact .inl (.of_error (.cancelled due) reached)
  | ok _ s' =>
    rw [hc] at reached
    simp only [bind_apply, get_apply, disk_of_checkpoint hc]
    cases hr : SourceDocument.read plan.readers s.world.disk (plan.workspace.pathOf file)
        (plan.workspace.display file) with
    | error e => exact .inl (.of_ok (.unread hr) reached rfl)
    | ok source =>
      simp only [ok_bind]
      cases hf : Revision.candidates plan.readers rules file source.text with
      | error e => exact .inl (.of_ok (.malformed hr hf) reached rfl)
      | ok found =>
        change _ ∨ _
        cases found with
        | error f => exact .inl (.of_error (.unfound hr hf) reached)
        | ok candidates => exact judge_leaves_or_writes dry hr hf hc reached

-- Each step of a run that is no dry one either leaves its file alone or writes it.
theorem reviseFile_leaves_or_writes (dry : plan.dryRun = false) (p : Progress) (s : RunState σ) :
    Xor (Left plan outside rules file p s (reviseFile plan outside rules p file s))
      (Written plan outside rules file p s (reviseFile plan outside rules p file s)) := by
  rcases reviseFile_cases dry p s with left | written
  case inl => exact .inl ⟨left, fun written => not_left_of_written written left⟩
  case inr => exact .inr ⟨written, not_left_of_written written⟩

theorem reviseFile_writes_globalJson :
    let plan : RunPlan :=
      { readers := .standard
        workspace := ⟨⟨"", "."⟩, "", ["global.json"]⟩
        channel := .ofNumbers 8 0
        policy := {}
        settings := {}
        dryRun := false }
    let outside : Collaborators Unit :=
      { runTool := fun call => pure (.error (.process call.program "not installed")), registry := none }
    let bytes := "\x7b \"sdk\": \x7b \"version\": \"6.0.100\" \x7d \x7d\n".toUTF8
    let p : Progress := { report := { name := "global-json" } }
    let s : RunState Unit :=
      { world := { disk := { entries := [("global.json", .file bytes)] }, outside := () } }
    Written plan outside Upgrader.globalJson "global.json" p s
      (reviseFile plan outside Upgrader.globalJson p "global.json" s) := by
  intro plan outside bytes p s
  have recorded : (match reviseFile plan outside Upgrader.globalJson p "global.json" s with
      | .ok p' _ => p'.report.changes.length
      | .error _ _ => 0) = 1 := by decide +kernel
  have dry : plan.dryRun = false := rfl
  rcases reviseFile_leaves_or_writes dry p s with ⟨left, _⟩ | ⟨written, _⟩
  case inr => exact written
  case inl =>
    split at recorded
    case h_1 p' s' h =>
      rw [left.unrecorded h] at recorded
      cases recorded
    case h_2 => cases recorded

end Run
end Repin
