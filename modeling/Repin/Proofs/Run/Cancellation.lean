import Repin.CommandLine.Execution
import Repin.Proofs.Run.Conduct
import Repin.Proofs.Run.DryRun
/-!
# Cancelled runs

A run that is told to stop has done what it would have done otherwise, up to the end of the step of some
file. Main statement: `execute_cancelled`.
-/
namespace Repin

variable {σ α β : Type} {outside : Collaborators σ}

-- The world without the signal.
def World.unsignalled (w : World σ) : World σ :=
  { w with cancellation := .never }

-- The answer of someone who does not give the signal.
def quietly (question : StateM (World σ) α) : StateM (World σ) α := fun w =>
  ((question w).1, (question w).2.unsignalled)

namespace Collaborators

-- The same collaborators, but that they do not give the signal.
def unsignalled (outside : Collaborators σ) : Collaborators σ where
  runTool call := quietly (outside.runTool call)
  registry := outside.registry.map fun registry image tag => quietly (registry image tag)

-- Whether collaborators may give the signal, but do not act on it.
structure Heedless (outside : Collaborators σ) : Prop where
  runTool : ∀ call w, quietly (outside.runTool call) w.unsignalled = quietly (outside.runTool call) w
  registry : ∀ registry, outside.registry = some registry → ∀ image tag w,
    quietly (registry image tag) w.unsignalled = quietly (registry image tag) w

-- Collaborators that never give the signal.
structure Silent (outside : Collaborators σ) : Prop where
  runTool : ∀ call w, w.cancellation = .never → (outside.runTool call w).2.cancellation = .never
  registry : ∀ registry, outside.registry = some registry → ∀ image tag w, w.cancellation = .never →
    (registry image tag w).2.cancellation = .never

theorem Silent.unsignalled (outside : Collaborators σ) : outside.unsignalled.Silent where
  runTool _ _ _ := rfl
  registry registry asked image tag w _ := by
    obtain ⟨_, _, rfl⟩ := Option.map_eq_some_iff.mp asked
    rfl

-- The tools of the program change the disk alone, and they do so with the signal as without it.
theorem heedless_surroundings : CommandLine.surroundings.Heedless where
  runTool _ _ := rfl
  registry _ asked _ _ _ := by
    cases asked
    rfl

theorem silent_surroundings : CommandLine.surroundings.Silent where
  runTool _ _ never := never
  registry _ asked _ _ _ never := by
    cases asked
    exact never

end Collaborators

-- The state without the signal.
def RunState.unsignalled (s : RunState σ) : RunState σ :=
  { s with world := s.world.unsignalled }

namespace Run

variable {kind : Event → Prop} {s s' : RunState σ} {plan : RunPlan}

theorem checkpoint_unsignalled (s : RunState σ) :
    RunM.checkpoint s.unsignalled = .ok () s.unsignalled := rfl

theorem ask_unsignalled {question : StateM (World σ) α} {answer : α}
    (heedless : quietly question s.world.unsignalled = quietly question s.world)
    (h : RunM.ask question s = .ok answer s') :
    RunM.ask (quietly question) s.unsignalled = .ok answer s'.unsignalled := by
  cases h
  rw [RunM.ask_apply]
  change EStateM.Result.ok (quietly question s.world.unsignalled).1
    { s with world := (quietly question s.world.unsignalled).2 } = _
  rw [heedless]
  rfl

theorem writeBack_unsignalled {readers : Readers} {source : SourceDocument} {text : String}
    {answer : Except DocumentError Unit} (h : writeBack readers source text s = .ok answer s') :
    writeBack readers source text s.unsignalled = .ok answer s'.unsignalled := by
  have same : s.unsignalled.world.disk = s.world.disk := rfl
  unfold writeBack at h ⊢
  rw [RunM.ask_apply] at h ⊢
  rw [same]
  cases hw : source.writeBack readers text s.world.disk with
  | ok _ disk =>
    rw [hw] at h
    cases h
    rfl
  | error e disk =>
    rw [hw] at h
    cases h
    rfl

-- Actions go on without the signal as they did with it.
theorem Action.take_unsignalled {action : Action β} {answer : β} (heedless : outside.Heedless)
    (h : action.take outside s = .ok answer s') :
    action.take outside.unsignalled s.unsignalled = .ok answer s'.unsignalled := by
  cases action with
  | check =>
    obtain ⟨_, rfl⟩ := RunM.checkpoint_eq_ok h
    rfl
  | look | consult | review | remember | tell =>
    cases h
    rfl
  | ask image tag =>
    cases hr : outside.registry with
    | none =>
      rw [take, answerOf, hr] at h
      rw [take, answerOf, Collaborators.unsignalled, hr]
      cases h
      rfl
    | some registry =>
      rw [take, answerOf, hr] at h
      rw [take, answerOf, Collaborators.unsignalled, hr]
      exact ask_unsignalled (heedless.registry registry hr image tag s.world) h
  | start call =>
    rw [take] at h
    rw [take, Collaborators.unsignalled]
    exact ask_unsignalled (heedless.runTool call s.world) h
  | write => exact writeBack_unsignalled h

-- How a part of a run ends, without the signal.
def resultUnsignalled : EStateM.Result RunStop (RunState σ) α → EStateM.Result RunStop (RunState σ) α
  | .ok a s => .ok a s.unsignalled
  | .error stop s => .error stop s.unsignalled

-- A course that is not cancelled goes as it does without the signal.
theorem Course.perform_unsignalled {course : Course α} (heedless : outside.Heedless)
    (h : ∀ s', course.perform outside s ≠ .error (.failed .cancelled) s') :
    course.perform outside.unsignalled s.unsignalled = resultUnsignalled (course.perform outside s) := by
  induction course generalizing s with
  | done | stop => rfl
  | act action rest ih =>
    rw [perform, bind_apply] at h
    rw [perform, perform, bind_apply, bind_apply]
    cases hs : action.take outside s with
    | error stop s' =>
      rw [hs] at h
      cases (Action.take_eq_error hs).1
      exact absurd rfl (h s')
    | ok answer s' =>
      rw [hs] at h
      rw [Action.take_unsignalled heedless hs]
      exact ih answer h

theorem HasCourse.unsignalled {x : Collaborators σ → RunM σ α}
    (hx : HasCourse outside.registry.isSome kind x) (heedless : outside.Heedless)
    (h : ∀ s', x outside s ≠ .error (.failed .cancelled) s') :
    x outside.unsignalled s.unsignalled = resultUnsignalled (x outside s) := by
  obtain ⟨course, _, performs⟩ := hx
  rw [performs outside rfl] at h
  rw [performs outside rfl, performs outside.unsignalled (Option.isSome_map ..)]
  exact Course.perform_unsignalled heedless h

-- The files in the steps of an upgrader's turn.
def filesOf (plan : RunPlan) (upgrader : Upgrader) : List String :=
  match Workspace.readPatterns plan.readers upgrader.info.patterns with
  | .error _ => []
  | .ok patterns =>
    let applies := match upgrader with
      | .documents rules => rules.appliesTo plan.channel
      | .packages _ => plan.settings.packages.enabled
    if applies then plan.workspace.matching patterns else []

-- The steps of files with which an upgrader's turn begins.
def steps (plan : RunPlan) (outside : Collaborators σ) (upgrader : Upgrader) (files : List String) :
    RunM σ Unit :=
  match upgrader with
  | .documents rules =>
    discard (files.foldlM (reviseFile plan outside rules) { report := { name := rules.info.name } })
  | .packages info => discard (files.foldlM (scanProject plan info) ({ name := info.name }, []))

-- The run up to the end of a step: some turns as a whole, and the first steps of the turn that is next.
def upTo (plan : RunPlan) (outside : Collaborators σ) (turns : List Upgrader) (next : Upgrader)
    (files : List String) : RunM σ Unit := do
  let start : RunReport :=
    { channel := plan.channel.render, sdkVersion := plan.channel.sdk.render, dryRun := plan.dryRun }
  discard (turns.foldlM (turn plan outside) start)
  steps plan outside next files

variable {rules : DocumentRules} {info : UpgraderInfo} {file : String} {files : List String}
variable {p : Progress} {stop : RunStop}

-- A step that ends early has not touched its file.
theorem reviseFile_stopped (h : reviseFile plan outside rules p file s = .error stop s') :
    Attends outside s.world s'.world := by
  cases dry : plan.dryRun with
  | false =>
    rcases @reviseFile_cases σ plan outside rules file dry p s with left | ⟨_, _, _, _, _, _, written, _⟩
    case inl =>
      have attends := left.attends
      rwa [h] at attends
    case inr => cases h.symm.trans written
  | true =>
    have course : HasCourse outside.registry.isSome Event.IsHarmless fun outside : Collaborators σ =>
      reviseFile plan outside rules p file := .reviseFile (.dry dry _)
    have attends := course.attends s
    rwa [h] at attends

theorem scanProject_stopped {found : CategoryReport × List StaleReference}
    (h : scanProject plan info found file s = .error stop s') : Attends outside s.world s'.world := by
  have asks : OnlyAsks outside (fun _ => False) (scanProject plan info found file) := by
    obtain ⟨report, stale⟩ := found
    rw [scanProject_eq]
    refine OnlyAsks.checkpoint.bind fun _ => OnlyAsks.of_get.bind fun s => ?_
    cases staleIn plan s.world.disk file with
    | error e => exact (OnlyAsks.diagnose _).bind fun _ => .of_pure _
    | ok more => exact .of_pure _
  have attends := asks.attends s
  rwa [h] at attends

-- The tool is not started where the run ends before it.
theorem upgradePackages_stopped {report : CategoryReport} {stale : List StaleReference}
    (h : upgradePackages plan outside info report stale s = .error stop s') :
    Attends outside s.world s'.world := by
  unfold upgradePackages at h
  dsimp only at h
  split at h
  case isTrue => cases h
  case isFalse =>
    rcases error_of_bind h with here | ⟨_, s₁, _, h⟩
    case inl =>
      have asks : OnlyAsks outside (fun _ => False) (RunM.checkpoint : RunM σ Unit) := .checkpoint
      have attends := asks.attends s
      rwa [here] at attends
    case inr =>
      rcases error_of_bind h with here | ⟨answer, s₂, _, h⟩
      case inl => cases here
      case inr =>
        cases answer with
        | error e => cases h
        | ok output =>
          dsimp only at h
          split at h <;> cases h

-- The state at the end of a step in which a part of a run is cancelled: without the signal, the run would
-- have come there, too, and the world was left alone since.
def StopsAfter (outside : Collaborators σ) (x : RunM σ Unit) (s s' : RunState σ) : Prop :=
  ∃ t : RunState σ, x s.unsignalled = .ok () t.unsignalled ∧ Attends outside t.world s'.world

theorem HasCourse.discard_unsignalled {x : Collaborators σ → RunM σ α} {a : α}
    (hx : HasCourse outside.registry.isSome kind x) (heedless : outside.Heedless)
    (h : x outside s = .ok a s') :
    (discard (x outside.unsignalled) : RunM σ Unit) s.unsignalled = .ok () s'.unsignalled := by
  have same := hx.unsignalled heedless (s := s) (by simp [h])
  rw [h] at same
  change ((fun _ => ()) <$> x outside.unsignalled : RunM σ Unit) s.unsignalled = _
  rw [map_apply, same]
  rfl

theorem reviseFiles_cancelled (heedless : outside.Heedless)
    (h : reviseFiles plan outside rules files s = .error stop s') :
    ∃ before, before <+: (if rules.appliesTo plan.channel then files else []) ∧
      StopsAfter outside (steps plan outside.unsignalled (.documents rules) before) s s' := by
  unfold reviseFiles at h
  split at h
  case isFalse => cases h
  case isTrue applies =>
    rcases error_of_bind h with steps | ⟨p, s₁, _, h⟩
    case inr => cases h
    case inl =>
      obtain ⟨before, file, after, p, t, rfl, done, last⟩ := exists_of_foldlM_error steps
      have course : HasCourse outside.registry.isSome (fun _ => True) fun outside : Collaborators σ =>
          before.foldlM (reviseFile plan outside rules) { report := { name := rules.info.name } } :=
        .foldlM_reviseFile (.any plan _)
      exact ⟨before, by simp [applies], t, course.discard_unsignalled heedless done,
        reviseFile_stopped last⟩

theorem packages_cancelled (heedless : outside.Heedless)
    (h : packages plan outside info files s = .error stop s') :
    ∃ before, before <+: (if plan.settings.packages.enabled then files else []) ∧
      StopsAfter outside (steps plan outside.unsignalled (.packages info) before) s s' := by
  have course (before : List String) : HasCourse outside.registry.isSome (fun _ => True)
      fun _ : Collaborators σ => before.foldlM (scanProject plan info) ({ name := info.name }, []) :=
    .foldlM_scanProject (.any plan _)
  unfold packages at h
  dsimp only at h
  split at h
  case isFalse => cases h
  case isTrue enabled =>
    rcases error_of_bind h with steps | ⟨found, t, done, h⟩
    case inl =>
      obtain ⟨before, file, after, found, t, rfl, done, last⟩ := exists_of_foldlM_error steps
      exact ⟨before, by simp [enabled], t, (course before).discard_unsignalled heedless done,
        scanProject_stopped last⟩
    case inr =>
      split at h
      case isTrue => cases h
      case isFalse =>
        exact ⟨files, by simp [enabled], t, (course files).discard_unsignalled heedless done,
          upgradePackages_stopped h⟩

theorem category_cancelled {upgrader : Upgrader} {patterns : List (String → Bool)}
    (heedless : outside.Heedless)
    (read : Workspace.readPatterns plan.readers upgrader.info.patterns = .ok patterns)
    (h : category plan outside upgrader (plan.workspace.matching patterns) s = .error stop s') :
    ∃ files, files <+: filesOf plan upgrader ∧
      StopsAfter outside (steps plan outside.unsignalled upgrader files) s s' := by
  unfold filesOf
  rw [read]
  cases upgrader with
  | documents rules => exact reviseFiles_cancelled heedless h
  | packages info => exact packages_cancelled heedless h

theorem turn_cancelled {report : RunReport} {upgrader : Upgrader} (heedless : outside.Heedless)
    (h : turn plan outside report upgrader s = .error (.failed .cancelled) s') :
    ∃ files, files <+: filesOf plan upgrader ∧
      StopsAfter outside (steps plan outside.unsignalled upgrader files) s s' := by
  unfold turn at h
  split at h
  case isTrue => cases h
  case isFalse =>
    rcases error_of_bind h with here | ⟨_, s₁, checked, h⟩
    case inl =>
      have asks : OnlyAsks outside (fun _ => False) (RunM.checkpoint : RunM σ Unit) := .checkpoint
      have attends := asks.attends s
      rw [here] at attends
      refine ⟨[], List.nil_prefix, s, ?_, attends⟩
      cases upgrader <;> rfl
    case inr =>
      -- Without the signal, the check at the beginning of the turn does nothing.
      have same : s.unsignalled = s₁.unsignalled := by
        have taken : Action.check.take outside s = .ok () s₁ := checked
        have unsignalled := Action.take_unsignalled heedless taken
        exact (EStateM.Result.ok.inj ((checkpoint_unsignalled s).symm.trans unsignalled)).2
      cases read : Workspace.readPatterns plan.readers upgrader.info.patterns with
      | error e =>
        rw [read] at h
        cases h
        exact absurd read (HasCourse.readPatterns_ne_cancelled _)
      | ok patterns =>
        rw [read] at h
        rcases error_of_bind h with read | ⟨_, _, read, h⟩ <;> cases read
        rcases error_of_bind h with stopped | ⟨_, _, _, h⟩
        case inr => cases h
        case inl =>
          unfold StopsAfter
          rw [same]
          exact category_cancelled heedless read stopped

theorem turns_cancelled {upgraders : List Upgrader} {start : RunReport} (heedless : outside.Heedless)
    (h : upgraders.foldlM (turn plan outside) start s = .error (.failed .cancelled) s') :
    ∃ turns next later files, upgraders = turns ++ next :: later ∧ files <+: filesOf plan next ∧
      StopsAfter outside (do
        discard (turns.foldlM (turn plan outside.unsignalled) start)
        steps plan outside.unsignalled next files) s s' := by
  obtain ⟨turns, next, later, report, s₁, rfl, done, last⟩ := exists_of_foldlM_error h
  obtain ⟨files, listed, t, stepped, attends⟩ := turn_cancelled heedless last
  have course : HasCourse outside.registry.isSome (fun _ => True)
      fun outside : Collaborators σ => turns.foldlM (turn plan outside) start :=
    .turns ⟨fun u _ _ => .any plan u, fun _ _ _ _ => trivial⟩
  refine ⟨turns, next, later, files, rfl, listed, t, ?_, attends⟩
  rw [bind_apply, course.discard_unsignalled heedless done]
  exact stepped

theorem execute_eq_cancelled_iff {upgraders : List Upgrader} {world : World σ} :
    (execute plan outside upgraders world).1 = .error (.failed .cancelled) ↔
      ∃ s, all plan outside upgraders { world } = .error (.failed .cancelled) s := by
  unfold execute EStateM.run
  cases all plan outside upgraders { world } <;> simp

-- Nobody cancels a run whose collaborators do not give the signal.
theorem execute_ne_cancelled (silent : outside.Silent) (plan : RunPlan) (upgraders : List Upgrader)
    {world : World σ} (never : world.cancellation = .never) :
    (execute plan outside upgraders world).1 ≠ .error (.failed .cancelled) := by
  intro h
  obtain ⟨s, ended⟩ := execute_eq_cancelled_iff.mp h
  have course : HasCourse outside.registry.isSome (fun e => e ≠ .stopped (.failed .cancelled))
      fun outside : Collaborators σ => all plan outside upgraders := by
    refine .all ⟨fun u _ _ => by constructor <;> simp, ?_⟩
    rintro u _ e malformed same
    cases same
    exact HasCourse.readPatterns_ne_cancelled _ malformed
  refine course.stopped_of_never ?_ (fun call _ => silent.runTool call) never ended rfl
  intro image tag w never
  rw [answerOf]
  cases asked : outside.registry with
  | none => exact never
  | some registry => exact silent.registry registry asked image tag w never

theorem unsignalled_ne_cancelled (plan : RunPlan) (outside : Collaborators σ)
    (upgraders : List Upgrader) (world : World σ) :
    (execute plan outside.unsignalled upgraders world.unsignalled).1 ≠ .error (.failed .cancelled) :=
  execute_ne_cancelled (.unsignalled outside) plan upgraders rfl

-- So the program is only cancelled from outside.
theorem execute_surroundings_ne_cancelled (plan : RunPlan) (upgraders : List Upgrader) (disk : Disk) :
    (execute plan CommandLine.surroundings upgraders { disk, outside := () }).1
      ≠ .error (.failed .cancelled) :=
  execute_ne_cancelled Collaborators.silent_surroundings plan upgraders rfl

-- A run returns that it was cancelled where one of its checks sees the signal, and nothing is noticed of
-- it after that. A run that is not cancelled goes as it does without the signal. One that is cancelled has
-- come to the end of some step as it would without the signal, and has done nothing to the world since
-- but check and ask.
theorem execute_cancelled (heedless : outside.Heedless) (plan : RunPlan) (upgraders : List Upgrader)
    (world : World σ) :
    let ended := execute plan outside upgraders world
    let uncancelled := execute plan outside.unsignalled upgraders world.unsignalled
    (∃ course : Course RunReport,
      (∀ other : Collaborators σ, other.registry.isSome = outside.registry.isSome →
        all plan other upgraders = course.perform other) ∧
      (ended.1 = .error (.failed .cancelled) ↔ .cancelled ∈ course.events outside { world }) ∧
      (ended.1 = .error (.failed .cancelled) → ∃ before,
        course.events outside { world } = before ++ [.cancelled] ∧ .cancelled ∉ before)) ∧
    uncancelled.1 ≠ .error (.failed .cancelled) ∧
    (ended.1 ≠ .error (.failed .cancelled) →
      uncancelled.1 = ended.1 ∧ uncancelled.2 = ended.2.unsignalled) ∧
    (ended.1 = .error (.failed .cancelled) →
      ∃ (turns : List Upgrader) (next : Upgrader) (later : List Upgrader) (files : List String)
        (t : RunState σ),
      Upgrader.inOrder upgraders = turns ++ next :: later ∧ files <+: filesOf plan next ∧
      upTo plan outside.unsignalled turns next files { world := world.unsignalled }
        = .ok () t.unsignalled ∧
      Attends outside t.world ended.2 ∧
      ∀ path, outside.Spares path → ended.2.disk.find? path = t.world.disk.find? path) := by
  intro ended uncancelled
  have conduct : HasCourse outside.registry.isSome (fun _ => True) fun outside : Collaborators σ =>
      all plan outside upgraders := .all ⟨fun u _ _ => .any plan u, fun _ _ _ _ => trivial⟩
  refine ⟨?seen, unsignalled_ne_cancelled plan outside upgraders world, ?same, ?boundary⟩
  case seen =>
    obtain ⟨course, _, performs⟩ := conduct
    have same : all plan outside upgraders = course.perform outside := performs outside rfl
    refine ⟨course, performs, ?_, ?_⟩
    case refine_1 =>
      rw [execute_eq_cancelled_iff, same]
      refine ⟨fun ⟨s, h⟩ => ?_, Course.cancelled_of_events⟩
      obtain ⟨before, heq, _⟩ := Course.events_of_cancelled h
      simp [heq]
    case refine_2 =>
      intro h
      obtain ⟨s, h⟩ := execute_eq_cancelled_iff.mp h
      rw [same] at h
      exact Course.events_of_cancelled h
  case same =>
    intro other
    have same : all plan outside.unsignalled upgraders { world := world.unsignalled } = _ :=
      conduct.unsignalled heedless fun s h => other (execute_eq_cancelled_iff.mpr ⟨s, h⟩)
    unfold ended uncancelled execute EStateM.run
    rw [same]
    cases all plan outside upgraders { world } <;> exact ⟨rfl, rfl⟩
  case boundary =>
    intro h
    obtain ⟨s, h⟩ := execute_eq_cancelled_iff.mp h
    rcases error_of_bind h with turned | ⟨_, _, _, last⟩
    case inr => cases last
    case inl =>
      obtain ⟨turns, next, later, files, order, listed, t, reached, attends⟩ :=
        turns_cancelled heedless turned
      have last : ended.2 = s.world := by
        unfold ended execute EStateM.run
        rw [h]
      rw [last]
      exact ⟨turns, next, later, files, t, order, listed, reached, attends,
        fun path spares => attends.find?_eq spares⟩

-- The text of a file on a disk.
def textAt (d : Disk) (path : String) : Option String :=
  (SourceDocument.read pairPlan.readers d path path).toOption.map (·.text)

-- The signal comes when one of two files is written and the other one is not read yet.
theorem execute_cancelled_pair :
    let world := { pairWorld pinnedSdk with cancellation := .after 2 }
    ∃ w turns next files, ∃ t : RunState Unit,
      execute pairPlan noCollaborators Upgrader.all world = (.error (.failed .cancelled), w) ∧
      textAt w.disk "global.json" = some "\x7b\"sdk\":\x7b\"version\":\"10.0.100\"\x7d\x7d" ∧
      textAt w.disk "lib/global.json" = some pinnedSdk ∧
      upTo pairPlan noCollaborators.unsignalled turns next files { world := pairWorld pinnedSdk }
        = .ok () t.unsignalled ∧
      ∀ path, w.disk.find? path = t.world.disk.find? path := by
  intro world
  have ⟨stopped, first, second⟩ :
      (execute pairPlan noCollaborators Upgrader.all world).1.map (fun _ => ())
        = .error (.failed .cancelled) ∧
      textAt (execute pairPlan noCollaborators Upgrader.all world).2.disk "global.json"
        = some "\x7b\"sdk\":\x7b\"version\":\"10.0.100\"\x7d\x7d" ∧
      textAt (execute pairPlan noCollaborators Upgrader.all world).2.disk "lib/global.json"
        = some pinnedSdk := by
    rw [execute_all]
    decide +kernel
  have heedless : noCollaborators.Heedless := ⟨fun _ _ => rfl, nofun⟩
  have ⟨_, _, _, boundary⟩ := execute_cancelled heedless pairPlan Upgrader.all world
  cases ran : execute pairPlan noCollaborators Upgrader.all world with
  | mk ended w =>
    rw [ran] at stopped first second boundary
    cases map_eq_error.mp stopped
    obtain ⟨turns, next, _, files, t, _, _, reached, _, kept⟩ := boundary rfl
    exact ⟨w, turns, next, files, t, rfl, first, second, reached, fun path => kept path nofun⟩

end Run
end Repin
