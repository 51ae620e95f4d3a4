import Repin.Proofs.Run.Forecast
import Repin.Readers.Standard
import Repin.Run.Basic
import Repin.Upgrader.Documents
/-!
# Dry runs

A dry run reads each file as it is at first; the run that it stands for reads a file as the categories
before left it. So a dry run tells of the changes that will be made as far as no category before rewrote
the file. Main statement: `execute_foretold`.
-/
namespace Repin

variable {σ : Type} {answers : Option (String → String → DigestAnswer)}
variable {outside : Collaborators σ} {s s' w w' : RunState σ}

-- A change as a dry run reports it.
def FileChange.unwritten (c : FileChange) : FileChange :=
  { c with written := false }

-- The changes of a category in files that are not among given ones.
def CategoryReport.changesBesides (c : CategoryReport) (rewritten : List String) : List FileChange :=
  c.changes.filter fun change => change.path ∉ rewritten

-- The categories of a dry run foretell those of a run before which some files were rewritten: each of
-- them tells what becomes of the files that are not rewritten when its turn comes.
inductive Foretells : List String → List CategoryReport → List CategoryReport → Prop where
  | nil {rewritten : List String} : Foretells rewritten [] []
  | cons {rewritten : List String} {told made : CategoryReport} {tolds mades : List CategoryReport} :
    told.name = made.name →
    told.changesBesides rewritten = (made.changesBesides rewritten).map FileChange.unwritten →
    Foretells (rewritten ++ made.changes.map FileChange.path) tolds mades →
      Foretells rewritten (told :: tolds) (made :: mades)

-- Sorted as they are, the upgraders run document by document and the packages last.
theorem Upgrader.sorted_all : (documentRules.map documents ++ [packages packageVersions]).Pairwise
    fun a b => runsBefore a b := by
  decide +kernel

theorem Upgrader.all_eq : all = documentRules.map documents ++ [packages packageVersions] :=
  List.mergeSort_of_pairwise sorted_all

theorem Upgrader.inOrder_all :
    inOrder all = documentRules.map documents ++ [packages packageVersions] := by
  rw [all_eq]
  exact List.mergeSort_of_pairwise sorted_all

namespace Run

variable {plan : RunPlan} {rules : DocumentRules} {info : UpgraderInfo} {rewritten files : List String}
variable {report report' : RunReport}

-- A turn that comes to its end is left out, or it adds the report of its category.
theorem turn_cases {upgrader : Upgrader}
    (h : turn plan outside report upgrader s = .ok report' s') :
    (plan.settings.isDisabled upgrader.info.name = true ∧ report' = report ∧ s' = s) ∨
    (plan.settings.isDisabled upgrader.info.name = false ∧ ∃ patterns c s₁,
      Workspace.readPatterns plan.readers upgrader.info.patterns = .ok patterns ∧
      RunM.checkpoint s = .ok () s₁ ∧
      category plan outside upgrader (plan.workspace.matching patterns) s₁ = .ok c s' ∧
      report' = report.finish c) := by
  unfold turn at h
  split at h
  case isTrue disabled =>
    cases h
    exact .inl ⟨disabled, rfl, rfl⟩
  case isFalse enabled =>
    obtain ⟨_, s₁, checked, h⟩ := exists_of_bind h
    obtain ⟨patterns, read, h⟩ := RunM.exists_of_ofExcept_bind h
    obtain ⟨c, s₂, made, h⟩ := exists_of_bind h
    cases h
    exact .inr ⟨by simpa using enabled, patterns, c, s₁, read, checked, made, rfl⟩

-- The category of packages reports no changes of its own.
theorem scanProject_report {found found' : CategoryReport × List StaleReference} {file : String}
    (h : scanProject plan info found file s = .ok found' s') :
    found'.1.name = found.1.name ∧ found'.1.changes = found.1.changes := by
  unfold scanProject at h
  obtain ⟨_, s₁, _, h⟩ := exists_of_bind h
  obtain ⟨s₂, _, _, h⟩ := exists_of_bind h
  dsimp only at h
  generalize (SourceDocument.read _ _ _ _ >>= _ :
    Except DocumentError (List StaleReference)) = read at h
  cases read <;> cases h <;> exact ⟨rfl, rfl⟩

theorem foldlM_scanProject_report {found found' : CategoryReport × List StaleReference}
    (h : files.foldlM (scanProject plan info) found s = .ok found' s') :
    found'.1.name = found.1.name ∧ found'.1.changes = found.1.changes := by
  refine foldlM_kept (P := fun found' _ => found'.1.name = found.1.name ∧
    found'.1.changes = found.1.changes) h ?_ ⟨rfl, rfl⟩
  intro file _ before after s s' scanned ⟨name, changes⟩
  have ⟨name', changes'⟩ := scanProject_report scanned
  exact ⟨name'.trans name, changes'.trans changes⟩

theorem upgradePackages_report {c c' : CategoryReport} {stale : List StaleReference}
    (h : upgradePackages plan outside info c stale s = .ok c' s') :
    c'.name = c.name ∧ c'.changes = c.changes := by
  unfold upgradePackages at h
  dsimp only at h
  split at h
  case isTrue =>
    obtain ⟨_, s₁, _, h⟩ := exists_of_bind h
    cases h
    exact ⟨rfl, rfl⟩
  case isFalse =>
    obtain ⟨_, s₁, _, h⟩ := exists_of_bind h
    obtain ⟨answer, s₂, _, h⟩ := exists_of_bind h
    split at h
    case h_1 => cases h; exact ⟨rfl, rfl⟩
    case h_2 =>
      split at h
      all_goals
        cases h
        exact ⟨rfl, rfl⟩

theorem packages_report {c : CategoryReport} (h : packages plan outside info files s = .ok c s') :
    c.name = info.name ∧ c.changes = [] := by
  unfold packages at h
  dsimp only at h
  split at h
  case isFalse =>
    cases h
    exact ⟨rfl, rfl⟩
  case isTrue =>
    obtain ⟨found, s₁, scanned, h⟩ := exists_of_bind h
    have ⟨name, changes⟩ := foldlM_scanProject_report scanned
    split at h
    case isTrue =>
      cases h
      exact ⟨name, changes⟩
    case isFalse =>
      have ⟨name', changes'⟩ := upgradePackages_report h
      exact ⟨name'.trans name, changes'.trans changes⟩

-- The changes in files that two disks have in common.
theorem forecasts_besides (answers : Option (String → String → DigestAnswer)) (rules : DocumentRules)
    (files : List String) {d d' : Disk}
    (same : ∀ file, file ∉ rewritten → d.SameAt (plan.workspace.pathOf file) d') :
    (forecasts plan answers rules d' files).filter (fun c => c.path ∉ rewritten)
      = (forecasts plan answers rules d files).filter fun c => c.path ∉ rewritten := by
  unfold forecasts
  split
  case isFalse => rfl
  case isTrue =>
    rw [List.filter_filterMap, List.filter_filterMap]
    refine List.filterMap_congr fun file _ => ?_
    by_cases h : file ∈ rewritten
    case neg => rw [forecast_congr (same file h)]
    case pos =>
      have dropped (d : Disk) :
          (forecast plan answers rules d file).filter (fun c => c.path ∉ rewritten) = none := by
        refine Option.filter_eq_none_iff.mpr fun c hc => ?_
        simpa [path_of_forecast hc] using h
      rw [dropped, dropped]

-- A dry run beside the run it stands for: some files were rewritten by the latter, the others are as the
-- former has them.
structure Beside (plan : RunPlan) (answers : Option (String → String → DigestAnswer))
    (rewritten : List String) (s w : RunState σ) : Prop where
  told : s.Recalls answers
  made : w.Recalls answers
  same : ∀ file, file ∉ rewritten → s.world.disk.SameAt (plan.workspace.pathOf file) w.world.disk

theorem Beside.checkpoint (beside : Beside plan answers rewritten s w)
    (told : RunM.checkpoint s = .ok () s') (made : RunM.checkpoint w = .ok () w') :
    Beside plan answers rewritten s' w' := by
  have ⟨_, first⟩ := (Gives.checkpoint (σ := σ)).result beside.told told
  have ⟨_, second⟩ := (Gives.checkpoint (σ := σ)).result beside.made made
  exact ⟨first.recalls, second.recalls, first.disk ▸ second.disk ▸ beside.same⟩

-- The turn of a category of documents in both runs.
theorem Beside.reviseFiles {c c' : CategoryReport} (beside : Beside plan answers rewritten s w)
    (ha : outside.AnswersBy answers) (distinct : files.Nodup)
    (fine : Fine { plan with dryRun := false } w')
    (told : reviseFiles { plan with dryRun := true } outside rules files s = .ok c s')
    (made : reviseFiles { plan with dryRun := false } outside rules files w = .ok c' w') :
    c.name = c'.name ∧
    c.changesBesides rewritten = (c'.changesBesides rewritten).map FileChange.unwritten ∧
    Beside plan answers (rewritten ++ c'.changes.map FileChange.path) s' w' := by
  have dry : Fine { plan with dryRun := true } s' := fun wet => nomatch wet
  have first := reviseFiles_follows ha distinct beside.told dry told
  have second := reviseFiles_follows ha distinct beside.made fine made
  have toldChanges := first.recorded
  have madeChanges := second.recorded
  rw [List.nil_append] at toldChanges madeChanges
  refine ⟨first.name.trans second.name.symm, ?_, first.recalls, second.recalls, ?_⟩
  case refine_1 =>
    have same := forecasts_besides answers rules files beside.same
    rw [CategoryReport.changesBesides, CategoryReport.changesBesides, toldChanges, madeChanges,
      List.filter_map, List.filter_map, List.map_map]
    exact congrArg (List.map FileChange.unwritten) same.symm
  case refine_2 =>
    intro file hf
    have ⟨before, now⟩ := not_or.mp (List.mem_append.not.mp hf)
    have left := first.others (plan.workspace.pathOf file) fun wet => nomatch wet
    have right := second.others (plan.workspace.pathOf file) fun _ c hc path => now (by
      rw [madeChanges, List.map_map, pathOf_inj.mp path]
      exact List.mem_map_of_mem hc)
    have between := beside.same file before
    exact ⟨by rw [right.entry, between.entry, left.entry],
      by rw [right.unreadable, between.unreadable, left.unreadable]⟩

-- A turn in two runs of which one may be a dry one is left out, or the category has the same files.
theorem turns_cases {dry dry' : Bool} {upgrader : Upgrader} {r r' t t' : RunReport}
    (told : turn { plan with dryRun := dry } outside r upgrader s = .ok r' s')
    (made : turn { plan with dryRun := dry' } outside t upgrader w = .ok t' w') :
    (r' = r ∧ s' = s ∧ t' = t ∧ w' = w) ∨
    (plan.settings.isDisabled upgrader.info.name = false ∧ ∃ patterns c c' s₁ w₁,
      RunM.checkpoint s = .ok () s₁ ∧ RunM.checkpoint w = .ok () w₁ ∧
      category { plan with dryRun := dry } outside upgrader (plan.workspace.matching patterns) s₁
        = .ok c s' ∧
      category { plan with dryRun := dry' } outside upgrader (plan.workspace.matching patterns) w₁
        = .ok c' w' ∧
      r' = r.finish c ∧ t' = t.finish c') := by
  rcases turn_cases told with ⟨disabled, hr, hs⟩ | ⟨enabled, patterns, c, s₁, read, hc, run, hr⟩
  case inl =>
    rcases turn_cases made with ⟨_, ht, hw⟩ | ⟨enabled, _⟩
    case inl => exact .inl ⟨hr, hs, ht, hw⟩
    case inr => cases disabled.symm.trans enabled
  case inr =>
    rcases turn_cases made with ⟨disabled, _⟩ | ⟨_, _, c', w₁, read', hc', run', ht⟩
    case inl => cases disabled.symm.trans enabled
    case inr =>
      cases read.symm.trans read'
      exact .inr ⟨enabled, patterns, c, c', s₁, w₁, hc, hc', run, run', hr, ht⟩

-- The turns of categories of documents, and of the packages after them, in both runs.
theorem turns_foretold {documents : List DocumentRules} {r r' t t' : RunReport}
    (beside : Beside plan answers rewritten s w) (ha : outside.AnswersBy answers)
    (distinct : plan.workspace.files.Nodup) (fine : Fine { plan with dryRun := false } w')
    (told : (documents.map Upgrader.documents ++ [Upgrader.packages info]).foldlM
      (turn { plan with dryRun := true } outside) r s = .ok r' s')
    (made : (documents.map Upgrader.documents ++ [Upgrader.packages info]).foldlM
      (turn { plan with dryRun := false } outside) t w = .ok t' w') :
    ∃ tolds mades, r'.categories = r.categories ++ tolds ∧ t'.categories = t.categories ++ mades ∧
      Foretells rewritten tolds mades := by
  induction documents generalizing r t s w rewritten with
  | nil =>
    rw [List.map_nil, List.nil_append, List.foldlM_cons] at told made
    obtain ⟨r₁, s₁, first, last⟩ := exists_of_bind told
    obtain ⟨t₁, w₁, second, last'⟩ := exists_of_bind made
    cases last
    cases last'
    rcases turns_cases first second
      with ⟨rfl, _, rfl, _⟩ | ⟨_, _, c, c', _, _, _, _, run, run', rfl, rfl⟩
    case inl => exact ⟨[], [], by simp, by simp, .nil⟩
    case inr =>
      have ⟨name, changes⟩ := packages_report run
      have ⟨name', changes'⟩ := packages_report run'
      refine ⟨[c], [c'], rfl, rfl, .cons (name.trans name'.symm) ?_ .nil⟩
      rw [CategoryReport.changesBesides, CategoryReport.changesBesides, changes, changes']
      rfl
  | cons rules documents ih =>
    rw [List.map_cons, List.cons_append, List.foldlM_cons] at told made
    obtain ⟨r₁, s₁, first, toldLater⟩ := exists_of_bind told
    obtain ⟨t₁, w₁, second, madeLater⟩ := exists_of_bind made
    rcases turns_cases first second
      with ⟨rfl, rfl, rfl, rfl⟩ | ⟨_, _, c, c', _, _, hc, hc', run, run', rfl, rfl⟩
    case inl => exact ih beside toldLater madeLater
    case inr =>
      have later : HasCourse outside.registry.isSome (fun _ => True) fun outside : Collaborators σ =>
          (documents.map Upgrader.documents ++ [Upgrader.packages info]).foldlM
            (turn { plan with dryRun := false } outside) (t.finish c') :=
        .turns ⟨fun u _ _ => .any _ u, fun _ _ _ _ => trivial⟩
      have fine' := Fine.before later madeLater fine
      have ⟨name, changes, beside⟩ :=
        (beside.checkpoint hc hc').reviseFiles ha (distinct.filter _) fine' run run'
      have ⟨tolds, mades, hr, ht, rest⟩ := ih beside toldLater madeLater
      rw [RunReport.finish] at hr ht
      refine ⟨c :: tolds, c' :: mades, ?_, ?_, .cons name changes rest⟩
      · rw [hr, List.append_assoc, List.singleton_append]
      · rw [ht, List.append_assoc, List.singleton_append]

-- A run of all upgraders, turn by turn.
theorem execute_all (plan : RunPlan) (outside : Collaborators σ) (world : World σ) :
    execute plan outside Upgrader.all world =
      match (Upgrader.documentRules.map Upgrader.documents ++
        [Upgrader.packages Upgrader.packageVersions]).foldlM (turn plan outside)
          { channel := plan.channel.render, sdkVersion := plan.channel.sdk.render,
            dryRun := plan.dryRun } { world } with
      | .ok report s => (.ok { report with diagnostics := s.diagnostics }, s.world)
      | .error stop s => (.error stop, s.world) := by
  rw [execute, EStateM.run, all, Upgrader.inOrder_all, bind_apply]
  generalize List.foldlM (m := RunM σ) _ _ _ { world } = result
  cases result <;> rfl

-- A project that two categories rewrite. The framework gets longer, which moves the runtime identifier
-- behind it.
def sharedProject : String :=
  "<Project><TargetFramework>net6.0</TargetFramework>"
    ++ "<RuntimeIdentifier>win10-x64</RuntimeIdentifier></Project>\n"

def sharedPlan : RunPlan where
  readers := .standard
  workspace := ⟨⟨"", "."⟩, "", ["App.csproj"]⟩
  channel := .ofNumbers 10 0
  policy := {}
  settings := {}
  dryRun := false

def sharedWorld : World Unit where
  disk := { entries := [("App.csproj", .file sharedProject.toUTF8)] }
  outside := ()

-- Two pinned SDKs, without the category of packages.
def pairPlan : RunPlan where
  readers := .standard
  workspace := ⟨⟨"", "."⟩, "", ["global.json", "lib/global.json"]⟩
  channel := .ofNumbers 10 0
  policy := {}
  settings := { disabled := ["package-versions"] }
  dryRun := false

def pinnedSdk : String :=
  "\x7b\"sdk\":\x7b\"version\":\"6.0.100\"\x7d\x7d"

def pairWorld (first : String) : World Unit where
  disk :=
    { entries := [("global.json", .file first.toUTF8), ("lib/global.json", .file pinnedSdk.toUTF8)] }
  outside := ()

-- Nobody outside answers.
def noCollaborators : Collaborators Unit where
  runTool call := pure (.error (.process call.program "not installed"))
  registry := none

-- Where the edits of each category start, file by file.
def starts (report : RunReport) : List (List (List Nat)) :=
  report.categories.map fun c => c.changes.map fun change => change.edits.map (·.span.start)

theorem starts_shared (dryRun : Bool) :
    ∃ report world,
      execute { sharedPlan with dryRun } noCollaborators Upgrader.all sharedWorld = (.ok report, world) ∧
      report.diagnostics = [] ∧
      starts report = [[], [[26]], [[if dryRun then 69 else 70]], [], [], [], [], [], []] := by
  have evaluated : (execute { sharedPlan with dryRun } noCollaborators Upgrader.all sharedWorld).1.map
      (fun report => (report.diagnostics, starts report))
        = .ok ([], [[], [[26]], [[if dryRun then 69 else 70]], [], [], [], [], [], []]) := by
    rw [execute_all]
    cases dryRun <;> decide +kernel
  generalize execute { sharedPlan with dryRun } noCollaborators Upgrader.all sharedWorld = result
    at evaluated
  obtain ⟨ended, world⟩ := result
  cases ended with
  | error stop => cases evaluated
  | ok report =>
    have ⟨quiet, edited⟩ := Prod.mk.inj (Except.ok.inj evaluated)
    exact ⟨report, world, rfl, quiet, edited⟩

-- What a dry run reports, and what the run from the same disk reports if all files can be written: the
-- same categories, each with the same changes in files that no category before has rewritten.
-- Workspaces that are found list their files once, by nodup_files_of_discover.
theorem execute_foretold {world wd wr : World σ} {dry real : RunReport}
    (ha : outside.AnswersBy answers) (distinct : plan.workspace.files.Nodup)
    (told : execute { plan with dryRun := true } outside Upgrader.all world = (.ok dry, wd))
    (made : execute { plan with dryRun := false } outside Upgrader.all world = (.ok real, wr))
    (written : ∀ d ∈ real.diagnostics, d.stage ≠ .write) :
    Foretells [] dry.categories real.categories := by
  rw [execute_all] at told made
  split at told <;> cases told
  case h_1 r s' turns =>
  split at made <;> cases made
  case h_1 t w' turns' =>
  have fresh : RunState.Recalls answers { world } := by
    intro _ _ _ _ _ found
    cases found
  have start : Beside plan answers [] { world } { world } := ⟨fresh, fresh, fun _ _ => ⟨rfl, rfl⟩⟩
  have ⟨tolds, mades, hr, ht, foretold⟩ := turns_foretold start ha distinct
    (fun _ => written) turns turns'
  rw [hr, ht]
  exact foretold

theorem execute_foretold_shared :
    ∃ dry real wd wr,
      noCollaborators.AnswersBy none ∧ sharedPlan.workspace.files.Nodup ∧
      execute { sharedPlan with dryRun := true } noCollaborators Upgrader.all sharedWorld
        = (.ok dry, wd) ∧
      execute { sharedPlan with dryRun := false } noCollaborators Upgrader.all sharedWorld
        = (.ok real, wr) ∧
      (∀ d ∈ real.diagnostics, d.stage ≠ .write) ∧ Foretells [] dry.categories real.categories := by
  have ⟨dry, wd, told, _, _⟩ := starts_shared true
  have ⟨real, wr, made, quiet, _⟩ := starts_shared false
  have written : ∀ d ∈ real.diagnostics, d.stage ≠ .write := by simp [quiet]
  have silent : noCollaborators.AnswersBy none := rfl
  have distinct : sharedPlan.workspace.files.Nodup := by decide
  exact ⟨dry, real, wd, wr, silent, distinct, told, made, written,
    execute_foretold silent distinct told made written⟩

-- In files that were rewritten before, a change may be another one.
theorem execute_not_foretold_shared :
    ∃ dry real wd wr,
      noCollaborators.AnswersBy none ∧ sharedPlan.workspace.files.Nodup ∧
      execute { sharedPlan with dryRun := true } noCollaborators Upgrader.all sharedWorld
        = (.ok dry, wd) ∧
      execute { sharedPlan with dryRun := false } noCollaborators Upgrader.all sharedWorld
        = (.ok real, wr) ∧
      (∀ d ∈ real.diagnostics, d.stage ≠ .write) ∧
      dry.categories.map (·.changes)
        ≠ real.categories.map fun c => c.changes.map FileChange.unwritten := by
  have ⟨dry, wd, told, _, first⟩ := starts_shared true
  have ⟨real, wr, made, quiet, second⟩ := starts_shared false
  refine ⟨dry, real, wd, wr, rfl, by decide, told, made, by simp [quiet], fun same => ?_⟩
  have same : starts dry = starts real := by
    have edited := congrArg (List.map (List.map fun change => change.edits.map (·.span.start))) same
    rw [List.map_map, List.map_map] at edited
    simpa [starts, Function.comp_def, FileChange.unwritten] using edited
  rw [first, second] at same
  exact absurd same (by decide)

end Run
end Repin
