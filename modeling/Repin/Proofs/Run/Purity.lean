import Repin.Proofs.Run.DryRun
import Repin.Proofs.Run.Ending
/-!
# What dry runs leave alone

A dry run writes no file and starts no tool, however it ends, and it reports no change as written. Main
statement: `execute_dry_harmless`.
-/
namespace Repin

variable {σ : Type} {outside : Collaborators σ} {plan : RunPlan} {s s' : RunState σ}

-- The changes of a category are reported as written, or as not written in a dry run.
def CategoryReport.IsHonest (plan : RunPlan) (c : CategoryReport) : Prop :=
  ∀ change ∈ c.changes, change.written = !plan.dryRun

namespace Run

variable {rules : DocumentRules} {file : String} {files : List String} {p p' : Progress}

theorem HasCourse.all_dry (plan : RunPlan) (asks : Bool) (upgraders : List Upgrader) :
    HasCourse asks Event.IsHarmless fun outside : Collaborators σ =>
      Run.all { plan with dryRun := true } outside upgraders :=
  .all ⟨fun upgrader _ _ => .dry rfl upgrader, fun _ _ _ _ => trivial⟩

theorem reviseFile_isHonest (h : reviseFile plan outside rules p file s = .ok p' s')
    (honest : p.report.IsHonest plan) : p'.report.IsHonest plan := by
  cases reviseFile_ends h with
  | unread | current | blocked => exact honest
  | changed =>
    intro change hc
    rcases List.mem_append.mp hc with before | now
    case inl => exact honest change before
    case inr => rw [List.mem_singleton.mp now]

theorem reviseFiles_isHonest {c : CategoryReport}
    (h : reviseFiles plan outside rules files s = .ok c s') : c.IsHonest plan := by
  have start : CategoryReport.IsHonest plan { name := rules.info.name } := by
    simp [CategoryReport.IsHonest]
  unfold reviseFiles at h
  split at h
  case isFalse =>
    cases h
    exact start
  case isTrue =>
    obtain ⟨p, s₁, steps, h⟩ := exists_of_bind h
    have honest : p.report.IsHonest plan :=
      foldlM_kept (P := fun p _ => p.report.IsHonest plan) steps
        (fun _ _ _ _ _ _ step => reviseFile_isHonest step) start
    dsimp only at h
    split at h <;> cases h <;> exact honest

theorem category_isHonest {upgrader : Upgrader} {c : CategoryReport}
    (h : category plan outside upgrader files s = .ok c s') : c.IsHonest plan := by
  cases upgrader with
  | documents rules => exact reviseFiles_isHonest h
  | packages info =>
    have ⟨_, unchanged⟩ := packages_report h
    simp [CategoryReport.IsHonest, unchanged]

theorem all_isHonest {upgraders : List Upgrader} {report : RunReport}
    (h : all plan outside upgraders s = .ok report s') : ∀ c ∈ report.categories, c.IsHonest plan := by
  obtain ⟨r, s₁, turns, h⟩ := exists_of_bind h
  cases h
  refine foldlM_kept (P := fun r _ => ∀ c ∈ r.categories, c.IsHonest plan) turns ?_ (by simp)
  intro upgrader _ r r' s s' turned honest
  rcases turn_cases turned with ⟨_, rfl, _⟩ | ⟨_, _, c, _, _, _, made, rfl⟩
  case inl => exact honest
  case inr => exact List.forall_mem_append.mpr ⟨honest, by simpa using category_isHonest made⟩

theorem execute_fst {upgraders : List Upgrader} {world : World σ} {report : RunReport}
    (h : (execute plan outside upgraders world).1 = .ok report) :
    ∃ s, all plan outside upgraders { world } = .ok report s := by
  unfold execute EStateM.run at h
  split at h <;> cases h
  exact ⟨_, by assumption⟩

theorem execute_snd {upgraders : List Upgrader} {world : World σ} :
    (execute plan outside upgraders world).2
      = (RunM.final (all plan outside upgraders { world })).world := by
  unfold execute EStateM.run
  cases all plan outside upgraders { world } <;> rfl

-- However a dry run ends, it has done nothing to the world but check and ask the registry. Files that the
-- registry leaves alone are as they were, nothing depends on what a tool would do, and no change is
-- reported as written.
theorem execute_dry_harmless (plan : RunPlan) (outside : Collaborators σ) (upgraders : List Upgrader)
    (world : World σ) :
    let ended := execute { plan with dryRun := true } outside upgraders world
    Attends outside world ended.2 ∧
    (∀ path, outside.Spares path → ended.2.disk.find? path = world.disk.find? path) ∧
    (∀ runTool, execute { plan with dryRun := true } { outside with runTool } upgraders world = ended) ∧
    ∀ report, ended.1 = .ok report → ∀ change ∈ report.changes, change.written = false := by
  intro ended
  have course := HasCourse.all_dry (σ := σ) plan outside.registry.isSome upgraders
  have attends : Attends outside world ended.2 := by
    rw [execute_snd]
    exact course.attends { world }
  refine ⟨attends, fun path spares => attends.find?_eq spares, fun runTool => ?_, ?_⟩
  case refine_1 =>
    have same := course.unstarted (fun _ => id) runTool
    unfold ended execute
    rw [same]
  case refine_2 =>
    intro report h change hc
    obtain ⟨s, made⟩ := execute_fst h
    obtain ⟨c, listed, hc⟩ := List.mem_flatMap.mp hc
    exact all_isHonest made c listed change hc

theorem execute_dry_harmless_shared :
    let plan := { sharedPlan with dryRun := true }
    ∃ report world,
      execute plan noCollaborators Upgrader.all sharedWorld = (.ok report, world) ∧
      starts report = [[], [[26]], [[69]], [], [], [], [], [], []] ∧
      world.disk.find? "App.csproj" = some (.file sharedProject.toUTF8) ∧
      ∀ change ∈ report.changes, change.written = false := by
  intro plan
  have ⟨_, kept, _, unwritten⟩ := execute_dry_harmless sharedPlan noCollaborators Upgrader.all sharedWorld
  obtain ⟨report, world, told, _, edited⟩ := starts_shared true
  rw [told] at kept unwritten
  have untouched : noCollaborators.Spares "App.csproj" := nofun
  exact ⟨report, world, told, edited, kept "App.csproj" untouched, unwritten report rfl⟩

end Run
end Repin
