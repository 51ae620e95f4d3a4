import Mathlib.Tactic.Choose
import Repin.Proofs.Except
import Repin.Proofs.Run.Course
import Repin.Proofs.Run.Step
/-!
# What runs do

Every part of a run has a course, whoever the collaborators are. A dry run has one in which nothing is
written and no tool is started. Main statement: `HasCourse.all`.
-/
namespace Repin.Run

variable {σ α β : Type} {asks : Bool} {kind : Event → Prop} {plan : RunPlan}

-- A part of a run that has a course with events of a kind. The course may depend on whether there is a
-- registry, but not on what the collaborators do.
def HasCourse (asks : Bool) (kind : Event → Prop) (x : Collaborators σ → RunM σ α) : Prop :=
  ∃ course : Course α, course.Only kind ∧
    ∀ outside, outside.registry.isSome = asks → x outside = course.perform outside

-- What a step reads: the text of its file and the candidates in it, if it is well-formed.
def examine (plan : RunPlan) (rules : DocumentRules) (d : Disk) (file : String) :
    Except DocumentError (SourceDocument × Except Fault (List Candidate)) := do
  let source ← SourceDocument.read plan.readers d (plan.workspace.pathOf file)
    (plan.workspace.display file)
  let candidates ← (Revision.candidates plan.readers rules file source.text).mapError .malformed
  return (source, candidates)

theorem examine_eq_ok_iff {rules : DocumentRules} {d : Disk} {file : String} {source : SourceDocument}
    {found : Except Fault (List Candidate)} : examine plan rules d file = .ok (source, found) ↔
      SourceDocument.read plan.readers d (plan.workspace.pathOf file) (plan.workspace.display file)
        = .ok source ∧
      Revision.candidates plan.readers rules file source.text = .ok found := by
  simp only [examine, bind_eq_ok, mapError_eq_ok, pure, Except.pure, Except.ok.injEq, Prod.mk.injEq]
  constructor
  case mp =>
    rintro ⟨_, read, _, candidates, rfl, rfl⟩
    exact ⟨read, candidates⟩
  case mpr =>
    rintro ⟨read, candidates⟩
    exact ⟨source, read, found, candidates, rfl, rfl⟩

-- What a step does about what it has read.
def handle (plan : RunPlan) (outside : Collaborators σ) (rules : DocumentRules) (p : Progress)
    (file : String) :
    Except DocumentError (SourceDocument × Except Fault (List Candidate)) → RunM σ Progress
  | .error e => do
    diagnoseFile .warning rules.info.name file .parse e.message
    return p.scanned .warning
  | .ok (source, candidates) => do
    judge plan outside rules file source (← RunM.ofFault candidates) p

theorem reviseFile_eq {outside : Collaborators σ} {rules : DocumentRules} {p : Progress}
    {file : String} : reviseFile plan outside rules p file = (do
      RunM.checkpoint
      let s ← get
      handle plan outside rules p file (examine plan rules s.world.disk file)) := rfl

-- The stale references in a project, if it can be read.
def staleIn (plan : RunPlan) (d : Disk) (file : String) : Except DocumentError (List StaleReference) := do
  let source ← SourceDocument.read plan.readers d (plan.workspace.pathOf file)
    (plan.workspace.display file)
  (StaleReference.find plan.readers file source.text plan.settings.packages.prefixes
    plan.channel.major).mapError .malformed

-- What the category of packages does about a project.
def collect (info : UpgraderInfo) (report : CategoryReport) (stale : List StaleReference) (file : String) :
    Except DocumentError (List StaleReference) → RunM σ (CategoryReport × List StaleReference)
  | .error e => do
    diagnosePackages info .warning (some file) .parse e.message
    return ({ report with filesScanned := report.filesScanned + 1 }.record .warning, stale)
  | .ok more => return ({ report with filesScanned := report.filesScanned + 1 }, stale ++ more)

theorem scanProject_eq {info : UpgraderInfo} {report : CategoryReport} {stale : List StaleReference}
    {file : String} : (scanProject plan info (report, stale) file : RunM σ _) = (do
      RunM.checkpoint
      let s ← get
      collect info report stale file (staleIn plan s.world.disk file)) := by
  unfold scanProject
  dsimp only
  refine congrArg _ (funext fun _ => congrArg _ (funext fun s => ?_))
  cases h : staleIn plan s.world.disk file with
  | error e =>
    unfold staleIn at h
    simp only [h]
    rfl
  | ok more =>
    unfold staleIn at h
    simp only [h]
    rfl

namespace HasCourse

variable {x : Collaborators σ → RunM σ α} {f : α → Collaborators σ → RunM σ β}

theorem of_pure (a : α) : HasCourse asks kind fun _ => (pure a : RunM σ α) :=
  ⟨.done a, trivial, fun _ _ => rfl⟩

theorem of_action (action : Action α) (h : ∀ e ∈ action.event?, kind e) :
    HasCourse asks kind fun outside : Collaborators σ => action.take outside :=
  ⟨.act action .done, ⟨h, fun _ => trivial⟩, fun _ _ => (bind_pure _).symm⟩

theorem bind (hx : HasCourse asks kind x) (hf : ∀ a, HasCourse asks kind (f a)) :
    HasCourse asks kind fun outside => x outside >>= fun a => f a outside := by
  obtain ⟨course, only, same⟩ := hx
  choose rest restOnly restSame using hf
  refine ⟨course.bind rest, only.bind restOnly, fun outside h => ?_⟩
  dsimp only
  rw [Course.perform_bind, same outside h]
  exact congrArg _ (funext fun a => restSame a outside h)

theorem map (hx : HasCourse asks kind x) (f : α → β) :
    HasCourse asks kind fun outside => f <$> x outside :=
  hx.bind fun a => of_pure (f a)

theorem foldlM {f : β → α → Collaborators σ → RunM σ β} {as : List α}
    (hf : ∀ b, ∀ a ∈ as, HasCourse asks kind (f b a)) (b : β) :
    HasCourse asks kind fun outside => as.foldlM (fun b a => f b a outside) b := by
  induction as generalizing b with
  | nil => exact of_pure b
  | cons a as ih =>
    exact (hf b a List.mem_cons_self).bind (ih fun b a' ha => hf b a' (List.mem_cons_of_mem a ha))

theorem mapM {f : α → Collaborators σ → RunM σ β} {as : List α}
    (hf : ∀ a, HasCourse asks kind (f a)) :
    HasCourse asks kind fun outside => as.mapM fun a => f a outside := by
  induction as with
  | nil => exact of_pure []
  | cons a as ih =>
    simp only [List.mapM_cons]
    exact (hf a).bind fun b => ih.bind fun bs => of_pure (b :: bs)

theorem forM {f : α → Collaborators σ → RunM σ PUnit} {as : List α}
    (hf : ∀ a, HasCourse asks kind (f a)) :
    HasCourse asks kind fun outside => as.forM fun a => f a outside := by
  induction as with
  | nil => exact of_pure _
  | cons a as ih => exact (hf a).bind fun _ => ih

theorem checkpoint (h : kind .passed) :
    HasCourse asks kind fun _ => (RunM.checkpoint : RunM σ Unit) :=
  of_action .check (by simpa [Action.event?] using h)

theorem diagnose {d : Diagnostic} (h : kind (.told d)) :
    HasCourse asks kind fun _ => (RunM.diagnose d : RunM σ Unit) :=
  of_action (.tell d) (by simpa [Action.event?] using h)

theorem write {readers : Readers} {source : SourceDocument} {text : String}
    (h : kind (.wrote source.path)) :
    HasCourse asks kind fun _ => (writeBack readers source text : RunM σ _) :=
  of_action (.write readers source text) (by simpa [Action.event?] using h)

theorem start {call : ToolCall} (h : kind (.started call)) :
    HasCourse asks kind fun outside : Collaborators σ => RunM.ask (outside.runTool call) :=
  of_action (.start call) (by simpa [Action.event?] using h)

theorem ask {image tag : String} (h : kind (.asked image tag)) :
    HasCourse asks kind fun outside : Collaborators σ => RunM.ask (answerOf outside image tag) :=
  of_action (.ask image tag) (by simpa [Action.event?] using h)

-- A part that goes on with what it finds on the disk.
theorem of_disk {k : Disk → Collaborators σ → RunM σ α} (hk : ∀ disk, HasCourse asks kind (k disk)) :
    HasCourse asks kind fun outside => get >>= fun s => k s.world.disk outside :=
  (of_action .look (by simp [Action.event?])).bind hk

-- A part that goes on with the digests that it remembers.
theorem of_digests {k : DigestCache → Collaborators σ → RunM σ α}
    (hk : ∀ digests, HasCourse asks kind (k digests)) :
    HasCourse asks kind fun outside => get >>= fun s => k s.digests outside :=
  (of_action .consult (by simp [Action.event?])).bind hk

-- A part that goes on with what was told so far.
theorem of_diagnostics {k : List Diagnostic → Collaborators σ → RunM σ α}
    (hk : ∀ ds, HasCourse asks kind (k ds)) :
    HasCourse asks kind fun outside => get >>= fun s => k s.diagnostics outside :=
  (of_action .review (by simp [Action.event?])).bind hk

theorem ofFault {x : Except Fault α} (h : ∀ f, kind (.stopped (.fault f))) :
    HasCourse asks kind fun _ => (RunM.ofFault x : RunM σ α) := by
  cases x with
  | ok a => exact of_pure a
  | error f => exact ⟨.stop (.fault f) nofun, h f, fun _ _ => rfl⟩

theorem ofExcept {x : Except RunError α} (h : ∀ e, x = .error e → kind (.stopped (.failed e)))
    (other : x ≠ .error .cancelled) : HasCourse asks kind fun _ => (RunM.ofExcept x : RunM σ α) := by
  cases x with
  | ok a => exact of_pure a
  | error e =>
    have ne : RunStop.failed e ≠ .failed .cancelled := fun same => other (by cases same; rfl)
    exact ⟨.stop (.failed e) ne, h e rfl, fun _ _ => rfl⟩

theorem congr {y : Collaborators σ → RunM σ α} (hy : HasCourse asks kind y)
    (same : ∀ outside, outside.registry.isSome = asks → x outside = y outside) :
    HasCourse asks kind x := by
  obtain ⟨course, only, performs⟩ := hy
  exact ⟨course, only, fun outside h => (same outside h).trans (performs outside h)⟩

theorem digest (passed : kind .passed) {image tag : String} (asked : kind (.asked image tag)) :
    HasCourse asks kind fun outside : Collaborators σ => RunM.digest (answerOf outside) image tag := by
  unfold RunM.digest
  refine (checkpoint passed).bind fun _ => of_digests (k := fun digests outside => do
    let found ← digests.resolve image tag (RunM.ask (answerOf outside image tag))
    modify fun s => { s with digests := found.2 }
    return found.1) fun digests => .bind ?_ fun x => ?_
  case refine_1 =>
    unfold DigestCache.resolve
    cases digests.find? image tag with
    | some digest => exact of_pure _
    | none => exact (ask asked).bind fun _ => of_pure _
  case refine_2 =>
    exact (of_action (.remember x.2) (by simp [Action.event?])).bind fun _ => of_pure x.1

theorem pinnedVerdict (passed : kind .passed) (asked : ∀ image tag, kind (.asked image tag))
    {c : Candidate} {text : String} : HasCourse asks kind fun outside : Collaborators σ =>
      Revision.pinnedVerdict (lookup outside) c text := by
  cases asks with
  | false =>
    have unasked : HasCourse false kind fun _ : Collaborators σ =>
        (Revision.pinnedVerdict none c text : RunM σ Verdict) := by
      unfold Revision.pinnedVerdict
      cases ImageReference.parse text <;> exact of_pure _
    refine unasked.congr fun outside h => ?_
    have none : outside.registry = none := by simpa using h
    rw [lookup, none, Option.map_none]
  | true =>
    have questioned : HasCourse true kind fun outside : Collaborators σ =>
        Revision.pinnedVerdict (some (RunM.digest (answerOf outside))) c text := by
      unfold Revision.pinnedVerdict
      cases ImageReference.parse text with
      | error failure => exact of_pure _
      | ok image => exact (digest passed (asked _ _)).map _
    refine questioned.congr fun outside h => ?_
    obtain ⟨registry, hr⟩ := Option.isSome_iff_exists.mp h
    rw [lookup, answerOf, hr, Option.map_some, Option.getD_some]

theorem verdict (passed : kind .passed) (fault : ∀ f, kind (.stopped (.fault f)))
    (asked : ∀ image tag, kind (.asked image tag)) {rules : DocumentRules} {channel : Channel}
    {policy : UpgradePolicy} {newline : Newline} (c : Candidate) :
    HasCourse asks kind fun outside : Collaborators σ =>
      Revision.verdict rules channel policy (lookup outside) newline c := by
  unfold Revision.verdict
  refine (ofFault fault).bind fun d => ?_
  cases d with
  | unchanged | unsupported => exact of_pure _
  | replace text =>
    cases Revision.pinnedImage? rules c with
    | none => exact of_pure _
    | some pinned => exact pinnedVerdict passed asked

-- What the turn of an upgrader may be noticed to do.
structure Permits (kind : Event → Prop) (plan : RunPlan) (upgrader : Upgrader) : Prop where
  passed : kind .passed
  fault : ∀ f, kind (.stopped (.fault f))
  told : ∀ d, d.category = upgrader.info.name → kind (.told d)
  asked : ∀ image tag, kind (.asked image tag)
  wrote : plan.dryRun = false → ∀ path, kind (.wrote path)
  started : ∀ info, upgrader = .packages info → plan.dryRun = false → plan.settings.packages.enabled →
    ∀ call, kind (.started call)

-- What a run of upgraders may be noticed to do: what each of them may in its turn, and to end where
-- patterns are malformed.
structure PermitsAll (kind : Event → Prop) (plan : RunPlan) (upgraders : List Upgrader) : Prop where
  category : ∀ u ∈ upgraders, plan.settings.isDisabled u.info.name = false → Permits kind plan u
  malformed : ∀ u ∈ upgraders, ∀ e, Workspace.readPatterns plan.readers u.info.patterns = .error e →
    kind (.stopped (.failed e))

theorem Permits.any (plan : RunPlan) (upgrader : Upgrader) : Permits (fun _ => True) plan upgrader := by
  constructor <;> intros <;> trivial

-- A dry run does nothing else.
theorem Permits.dry (dry : plan.dryRun = true) (upgrader : Upgrader) :
    Permits Event.IsHarmless plan upgrader where
  passed := trivial
  fault _ := trivial
  told _ _ := trivial
  asked _ _ := trivial
  wrote wet := nomatch dry.symm.trans wet
  started _ _ wet := nomatch dry.symm.trans wet

section documents

variable {rules : DocumentRules} {file : String} {p : Progress}

theorem carryOut {source : SourceDocument} {patch : PatchSet} {judged : Severity}
    (h : Permits kind plan (.documents rules)) : HasCourse asks kind fun _ =>
      (carryOut plan rules.info.name file source patch judged p : RunM σ Progress) := by
  unfold Run.carryOut
  refine (ofFault h.fault).bind fun text => (ofFault h.fault).bind fun diff => ?_
  by_cases dry : plan.dryRun
  case pos =>
    simp only [dry, if_true]
    exact of_pure _
  case neg =>
    simp only [dry, Bool.false_eq_true, if_false]
    refine (write (h.wrote (by simpa using dry) source.path)).bind fun done => ?_
    cases done with
    | ok => exact of_pure _
    | error e => exact (diagnose (h.told _ rfl)).bind fun _ => of_pure _

theorem judge {source : SourceDocument} {candidates : List Candidate}
    (h : Permits kind plan (.documents rules)) : HasCourse asks kind fun outside : Collaborators σ =>
      judge plan outside rules file source candidates p := by
  unfold Run.judge
  refine (mapM fun c => verdict h.passed h.fault h.asked c).bind fun verdicts =>
    (forM fun message => diagnose (h.told _ rfl)).bind fun _ => (ofFault h.fault).bind fun patch => ?_
  by_cases edits : patch.hasEdits
  case pos =>
    simp only [edits, if_true]
    exact carryOut h
  case neg =>
    simp only [edits]
    exact of_pure _

theorem reviseFile (h : Permits kind plan (.documents rules)) :
    HasCourse asks kind fun outside : Collaborators σ => reviseFile plan outside rules p file := by
  refine (checkpoint h.passed).bind fun _ => of_disk
    (k := fun disk outside => handle plan outside rules p file (examine plan rules disk file))
    fun disk => ?_
  cases examine plan rules disk file with
  | error e => exact (diagnose (h.told _ rfl)).bind fun _ => of_pure _
  | ok read => exact (ofFault h.fault).bind fun candidates => judge h

theorem foldlM_reviseFile {files : List String} (h : Permits kind plan (.documents rules)) :
    HasCourse asks kind fun outside : Collaborators σ =>
      files.foldlM (Run.reviseFile plan outside rules) p :=
  foldlM (fun _ _ _ => reviseFile h) p

theorem reviseFiles {files : List String} (h : Permits kind plan (.documents rules)) :
    HasCourse asks kind fun outside : Collaborators σ => reviseFiles plan outside rules files := by
  unfold Run.reviseFiles
  by_cases applies : rules.appliesTo plan.channel
  case pos =>
    simp only [applies, if_true]
    exact (foldlM_reviseFile h).bind fun p => of_pure _
  case neg =>
    simp only [applies, Bool.false_eq_true, if_false]
    exact of_pure _

end documents

section packages

variable {info : UpgraderInfo} {file : String}

theorem scanProject {found : CategoryReport × List StaleReference} (h : Permits kind plan (.packages info)) :
    HasCourse asks kind fun _ => (scanProject plan info found file : RunM σ _) := by
  obtain ⟨report, stale⟩ := found
  simp only [scanProject_eq]
  refine (checkpoint h.passed).bind fun _ => of_disk
    (k := fun disk _ => collect info report stale file (staleIn plan disk file)) fun disk => ?_
  cases staleIn plan disk file with
  | error e => exact (diagnose (h.told _ rfl)).bind fun _ => of_pure _
  | ok more => exact of_pure _

theorem foldlM_scanProject {found : CategoryReport × List StaleReference} {files : List String}
    (h : Permits kind plan (.packages info)) : HasCourse asks kind fun _ =>
      (files.foldlM (Run.scanProject plan info) found : RunM σ _) :=
  foldlM (fun _ _ _ => scanProject h) found

theorem upgradePackages {report : CategoryReport} {stale : List StaleReference}
    (h : Permits kind plan (.packages info)) (enabled : plan.settings.packages.enabled) :
    HasCourse asks kind fun outside : Collaborators σ =>
      upgradePackages plan outside info report stale := by
  unfold Run.upgradePackages
  by_cases dry : plan.dryRun
  case pos =>
    simp only [dry, if_true]
    exact (diagnose (h.told _ rfl)).bind fun _ => of_pure _
  case neg =>
    simp only [dry, Bool.false_eq_true, if_false]
    refine (checkpoint h.passed).bind fun _ =>
      (start (h.started info rfl (by simpa using dry) enabled _)).bind fun answer => ?_
    cases answer with
    | error e => exact (diagnose (h.told _ rfl)).bind fun _ => of_pure _
    | ok output =>
      by_cases success : output.isSuccess
      case pos =>
        simp only [success, if_true]
        exact of_pure _
      case neg =>
        simp only [success, Bool.false_eq_true, if_false]
        exact (diagnose (h.told _ rfl)).bind fun _ => of_pure _

theorem packages {files : List String} (h : Permits kind plan (.packages info)) :
    HasCourse asks kind fun outside : Collaborators σ => packages plan outside info files := by
  unfold Run.packages
  by_cases enabled : plan.settings.packages.enabled
  case pos =>
    simp only [enabled, if_true]
    refine (foldlM_scanProject h).bind fun found => ?_
    cases found.2.isEmpty with
    | true => exact of_pure _
    | false => exact upgradePackages h enabled
  case neg =>
    simp only [enabled, Bool.false_eq_true, if_false]
    exact of_pure _

end packages

theorem category {upgrader : Upgrader} {files : List String} (h : Permits kind plan upgrader) :
    HasCourse asks kind fun outside : Collaborators σ => category plan outside upgrader files := by
  cases upgrader with
  | documents rules => exact reviseFiles h
  | packages info => exact packages h

theorem readPatterns_ne_cancelled {readers : Readers} (patterns : List String) :
    Workspace.readPatterns readers patterns ≠ .error .cancelled := by
  intro h
  obtain ⟨_, _, _, _, _, malformed⟩ := mapM_eq_error.mp h
  obtain ⟨_, _, same⟩ := mapError_eq_error.mp malformed
  cases same

theorem turn {report : RunReport} {upgrader : Upgrader}
    (h : plan.settings.isDisabled upgrader.info.name = false → Permits kind plan upgrader)
    (malformed : ∀ e, Workspace.readPatterns plan.readers upgrader.info.patterns = .error e →
      kind (.stopped (.failed e))) :
    HasCourse asks kind fun outside : Collaborators σ => turn plan outside report upgrader := by
  unfold Run.turn
  cases disabled : plan.settings.isDisabled upgrader.info.name with
  | true => exact of_pure _
  | false =>
    have permits := h disabled
    refine (checkpoint permits.passed).bind fun _ =>
      (ofExcept malformed (readPatterns_ne_cancelled _)).bind fun patterns =>
        (category permits).bind fun _ => of_pure _

theorem turns {report : RunReport} {upgraders : List Upgrader} (h : PermitsAll kind plan upgraders) :
    HasCourse asks kind fun outside : Collaborators σ =>
      upgraders.foldlM (Run.turn plan outside) report :=
  foldlM (fun _ u hu => turn (h.category u hu) (h.malformed u hu)) report

theorem all {upgraders : List Upgrader} (h : PermitsAll kind plan upgraders) :
    HasCourse asks kind fun outside : Collaborators σ => all plan outside upgraders := by
  have ordered : PermitsAll kind plan (Upgrader.inOrder upgraders) :=
    ⟨fun u hu => h.category u (List.mem_mergeSort.mp hu),
      fun u hu => h.malformed u (List.mem_mergeSort.mp hu)⟩
  exact (turns ordered).bind fun report => of_diagnostics
    (k := fun ds _ => pure { report with diagnostics := ds }) fun ds => of_pure _

variable {outside : Collaborators σ} {s s' : RunState σ}

-- What every action of a kind keeps, a part of a run with events of the kind keeps.
theorem final {P : RunState σ → Prop} (hx : HasCourse outside.registry.isSome kind x)
    (kept : ∀ {β : Type} (action : Action β) s, (∀ e ∈ action.event?, kind e) → P s →
      P (RunM.final (action.take outside s)))
    (h : P s) : P (RunM.final (x outside s)) := by
  obtain ⟨course, only, performs⟩ := hx
  rw [performs outside rfl]
  exact Course.final_perform only kept h

-- Nothing that was told is taken back, and what is told besides is of the kind.
theorem told (hx : HasCourse outside.registry.isSome kind x) (s : RunState σ) :
    ∃ told, (RunM.final (x outside s)).diagnostics = s.diagnostics ++ told ∧
      ∀ d ∈ told, kind (.told d) := by
  refine hx.final (P := fun s' => ∃ told, s'.diagnostics = s.diagnostics ++ told ∧
    ∀ d ∈ told, kind (.told d)) ?_ ⟨[], by simp⟩
  rintro β action s' allowed ⟨told, heq, only⟩
  cases action with
  | tell d =>
    refine ⟨told ++ [d], by rw [← List.append_assoc, ← heq]; rfl, ?_⟩
    exact List.forall_mem_append.mpr ⟨only, by simpa [Action.event?] using allowed⟩
  | check =>
    refine ⟨told, ?_, only⟩
    rw [← heq, Action.take]
    unfold RunM.checkpoint
    dsimp only
    split <;> rfl
  | look | consult | review | remember | ask | start | write => exact ⟨told, heq, only⟩

theorem untold (hx : HasCourse outside.registry.isSome kind x) (untold : ∀ d, ¬kind (.told d))
    (s : RunState σ) : (RunM.final (x outside s)).diagnostics = s.diagnostics := by
  obtain ⟨told, heq, only⟩ := hx.told s
  rw [heq, List.eq_nil_iff_forall_not_mem.mpr fun d hd => untold d (only d hd), List.append_nil]

-- A part that neither writes nor starts a tool does nothing to the world but check and ask.
theorem attends (hx : HasCourse outside.registry.isSome Event.IsHarmless x) (s : RunState σ) :
    Attends outside s.world (RunM.final (x outside s)).world := by
  refine hx.final (P := fun s' => Attends outside s.world s'.world) ?_ .refl
  intro β action s' allowed reached
  cases action with
  | check =>
    have asks : OnlyAsks outside (fun _ => False) (RunM.checkpoint : RunM σ Unit) := .checkpoint
    exact reached.trans (asks.attends s')
  | ask image tag =>
    cases hr : outside.registry with
    | none =>
      rw [Action.take, answerOf, hr]
      exact reached
    | some registry =>
      rw [Action.take, answerOf, hr]
      exact reached.answer image tag hr
  | write _ source => exact (allowed (.wrote source.path) rfl).elim
  | start call => exact (allowed (.started call) rfl).elim
  | look | consult | review | remember | tell => exact reached

-- A part that starts no tool does not depend on what becomes of one that is started.
theorem unstarted (hx : HasCourse outside.registry.isSome kind x)
    (unstarted : ∀ call, ¬kind (.started call))
    (runTool : ToolCall → StateM (World σ) (Except RunError ToolOutput)) :
    x { outside with runTool } = x outside := by
  obtain ⟨course, only, performs⟩ := hx
  rw [performs outside rfl, performs { outside with runTool } rfl]
  exact Course.perform_congr only unstarted

-- A part that ends early was cancelled, or it stopped for a reason of the kind.
theorem stopped {stop : RunStop} (hx : HasCourse outside.registry.isSome kind x)
    (h : x outside s = .error stop s') :
    (stop = .failed .cancelled ∧ s'.world.cancellation.isDue) ∨ kind (.stopped stop) := by
  obtain ⟨course, only, performs⟩ := hx
  rw [performs outside rfl] at h
  exact Course.perform_eq_error only h

-- Where nobody gives the signal, a part that ends early has stopped for a reason of the kind.
theorem stopped_of_never {stop : RunStop} (hx : HasCourse outside.registry.isSome kind x)
    (asked : ∀ image tag w, w.cancellation = .never →
      (answerOf outside image tag w).2.cancellation = .never)
    (started : ∀ call, kind (.started call) → ∀ w, w.cancellation = .never →
      (outside.runTool call w).2.cancellation = .never)
    (never : s.world.cancellation = .never) (h : x outside s = .error stop s') :
    kind (.stopped stop) := by
  have kept : (RunM.final (x outside s)).world.cancellation = .never := by
    refine hx.final (P := fun s => s.world.cancellation = .never) ?_ never
    intro β action s allowed never
    cases action with
    | check =>
      rw [Action.take, RunM.checkpoint, never]
      rfl
    | ask image tag => exact asked image tag s.world never
    | start call => exact started call (allowed _ rfl) s.world never
    | write readers source text =>
      rw [Action.take]
      rcases writeBack_apply readers source text s with ⟨e, _, hw⟩ | ⟨disk, _, _, hw⟩ <;> rw [hw] <;>
        exact never
    | look | consult | review | remember | tell => exact never
  rw [h] at kept
  refine (hx.stopped h).resolve_left fun ⟨_, due⟩ => ?_
  change s'.world.cancellation = .never at kept
  rw [kept] at due
  cases due

end HasCourse
end Repin.Run
