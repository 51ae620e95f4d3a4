import Repin.Proofs.Run.Conduct
import Repin.Proofs.Upgrader.Packages
import Repin.Readers.Standard
/-!
# Starts of the tool

A run of the category of packages starts the tool once if some package is stale and the run is neither
dry nor told to stop, and else it does not start it. A file that cannot be read plays no part in this.
Main statement: `packages_starts`.
-/
namespace Repin

variable {σ : Type} {outside : Collaborators σ} {w w' w'' : World σ} {c : Cancellation} {n : Nat}

namespace Cancellation

-- The signal lets so many checks pass.
def Passes (c : Cancellation) (n : Nat) : Prop :=
  ∀ checks, c = .after checks → n ≤ checks

theorem passes_zero : c.Passes 0 :=
  fun _ _ => Nat.zero_le _

theorem Passes.mono {m : Nat} (h : c.Passes n) (le : m ≤ n) : c.Passes m :=
  fun checks same => Nat.le_trans le (h checks same)

theorem passes_succ_iff : c.Passes (n + 1) ↔ c.isDue = false ∧ c.next.Passes n := by
  cases c with
  | never => simp [Passes, isDue, next]
  | after checks =>
    simp only [Passes, isDue, next, after.injEq, forall_eq', beq_eq_false_iff_ne]
    omega

end Cancellation

-- How checks and calls of the tool change a world.
inductive Calls (outside : Collaborators σ) (w : World σ) : List ToolCall → World σ → Prop where
  | refl : Calls outside w [] w
  | check {calls : List ToolCall} {v : World σ} : Calls outside w calls v →
    Calls outside w calls { v with cancellation := v.cancellation.next }
  | start {calls : List ToolCall} {v : World σ} (call : ToolCall) : Calls outside w calls v →
    Calls outside w (calls ++ [call]) (outside.runTool call v).2

-- Those outside keep a log of the calls of the tool.
def Collaborators.Logs (outside : Collaborators σ) (log : σ → List ToolCall) : Prop :=
  ∀ call w, log (outside.runTool call w).2.outside = log w.outside ++ [call]

namespace Calls

variable {calls calls' : List ToolCall}

theorem trans (h : Calls outside w calls w') (h' : Calls outside w' calls' w'') :
    Calls outside w (calls ++ calls') w'' := by
  induction h' with
  | refl => rwa [List.append_nil]
  | check _ ih => exact ih.check
  | start call _ ih =>
    rw [← List.append_assoc]
    exact ih.start call

theorem disk_eq (h : Calls outside w [] w') : w'.disk = w.disk := by
  generalize none : [] = calls at h
  induction h with
  | refl => rfl
  | check _ ih => exact ih none
  | start call => simp at none

theorem log_eq {log : σ → List ToolCall} (h : Calls outside w calls w') (logs : outside.Logs log) :
    log w'.outside = log w.outside ++ calls := by
  induction h with
  | refl => rw [List.append_nil]
  | check _ ih => exact ih
  | start call _ ih => rw [logs, ih, List.append_assoc]

theorem checked (outside : Collaborators σ) (s : RunState σ) : Calls outside s.world [] s.checked.world :=
  .check .refl

end Calls

namespace Run

variable {plan : RunPlan} {info : UpgraderInfo} {report : CategoryReport} {stale : List StaleReference}
variable {file : String} {files : List String} {package : String} {s : RunState σ}

-- A package is stale in a project that can be read and is well-formed.
def IsStaleIn (plan : RunPlan) (disk : Disk) (files : List String) (package : String) : Prop :=
  ∃ file ∈ files, ∃ source sites,
    SourceDocument.read plan.readers disk (plan.workspace.pathOf file) (plan.workspace.display file)
      = .ok source ∧
    DocumentFormat.xml.sites plan.readers source.text = .ok sites ∧
    StaleReference.IsStale plan.settings.packages.prefixes plan.channel.major sites package

theorem IsStaleIn.follows {disk : Disk} (h : IsStaleIn plan disk files package) :
    ∃ p ∈ plan.settings.packages.prefixes, p.toList <+: package.toList := by
  have ⟨_, _, _, _, _, _, _, _, _, follows, _⟩ := h
  exact follows

-- When the tool is started. There is a check before each file and one before the tool.
structure Starts (plan : RunPlan) (files : List String) (s : RunState σ) : Prop where
  enabled : plan.settings.packages.enabled
  wet : plan.dryRun = false
  unsignalled : s.world.cancellation.Passes (files.length + 1)
  stale : ∃ package, IsStaleIn plan s.world.disk files package

-- The call of the tool that includes some prefixes.
def toolCall (plan : RunPlan) (included : List String) : ToolCall where
  program := plan.settings.packages.tool
  arguments := [".", "--upgrade"] ++ included.flatMap fun p => ["--include", p]
  directory := plan.workspace.root
  timeout := plan.settings.packages.timeout

-- The stale references in a project, none if it cannot be read.
def staleOf (plan : RunPlan) (disk : Disk) (file : String) : List StaleReference :=
  (staleIn plan disk file).toOption.getD []

theorem staleIn_eq_ok_iff {disk : Disk} : staleIn plan disk file = .ok stale ↔
    ∃ source sites,
      SourceDocument.read plan.readers disk (plan.workspace.pathOf file) (plan.workspace.display file)
        = .ok source ∧
      DocumentFormat.xml.sites plan.readers source.text = .ok sites ∧
      sites.filterMap (StaleReference.ofSite? file plan.settings.packages.prefixes plan.channel.major)
        = stale := by
  simp only [staleIn, StaleReference.find, bind_eq_ok, mapError_eq_ok, pure, Except.pure,
    Except.ok.injEq]
  constructor
  case mp =>
    rintro ⟨source, read, sites, parsed, found⟩
    exact ⟨source, sites, read, parsed, found⟩
  case mpr =>
    rintro ⟨source, sites, read, parsed, found⟩
    exact ⟨source, read, sites, parsed, found⟩

theorem mem_staleOf_iff {disk : Disk} {reference : StaleReference} :
    reference ∈ staleOf plan disk file ↔
      ∃ stale, staleIn plan disk file = .ok stale ∧ reference ∈ stale := by
  rw [staleOf]
  cases staleIn plan disk file <;> simp [Except.toOption]

-- The packages of the references that are found in projects are the stale ones.
theorem exists_mem_flatMap_staleOf {disk : Disk} :
    (∃ r ∈ files.flatMap (staleOf plan disk), r.package = package) ↔
      IsStaleIn plan disk files package := by
  simp only [List.mem_flatMap, mem_staleOf_iff, staleIn_eq_ok_iff]
  constructor
  case mp =>
    rintro ⟨r, ⟨file, hf, _, ⟨source, sites, read, parsed, rfl⟩, hr⟩, same⟩
    have stale := StaleReference.exists_mem_filterMap_iff.mp ⟨r, hr, same⟩
    exact ⟨file, hf, source, sites, read, parsed, stale⟩
  case mpr =>
    rintro ⟨file, hf, source, sites, read, parsed, stale⟩
    obtain ⟨r, hr, same⟩ := StaleReference.exists_mem_filterMap_iff.mpr stale
    exact ⟨r, ⟨file, hf, _, ⟨source, sites, read, parsed, rfl⟩, hr⟩, same⟩

theorem exists_isStaleIn_iff {disk : Disk} :
    (∃ package, IsStaleIn plan disk files package) ↔ files.flatMap (staleOf plan disk) ≠ [] := by
  simp only [← exists_mem_flatMap_staleOf]
  constructor
  case mp =>
    rintro ⟨_, r, hr, _⟩
    exact List.ne_nil_of_mem hr
  case mpr =>
    intro some
    have ⟨r, hr⟩ := List.exists_mem_of_ne_nil _ some
    exact ⟨r.package, r, hr, rfl⟩

-- How the scan of some projects ends. Each of them takes one check.
inductive Scans (plan : RunPlan) (outside : Collaborators σ) (files : List String)
    (stale : List StaleReference) (s : RunState σ) :
    EStateM.Result RunStop (RunState σ) (CategoryReport × List StaleReference) → Prop where
  | ended {report : CategoryReport} {s' : RunState σ} : Calls outside s.world [] s'.world →
    (∀ n, s.world.cancellation.Passes (files.length + n) ↔ s'.world.cancellation.Passes n) →
    Scans plan outside files stale s (.ok (report, stale ++ files.flatMap (staleOf plan s.world.disk)) s')
  | cancelled {stop : RunStop} {s' : RunState σ} : Calls outside s.world [] s'.world →
    ¬s.world.cancellation.Passes files.length → Scans plan outside files stale s (.error stop s')

theorem collect_apply (plan : RunPlan) (info : UpgraderInfo) (report : CategoryReport)
    (stale : List StaleReference) (file : String) (disk : Disk) (s : RunState σ) : ∃ report' s',
    collect info report stale file (staleIn plan disk file) s
      = .ok (report', stale ++ staleOf plan disk file) s' ∧ s'.world = s.world := by
  rw [staleOf]
  cases staleIn plan disk file with
  | error e =>
    rw [Except.toOption, Option.getD_none, List.append_nil]
    exact ⟨_, _, rfl, rfl⟩
  | ok more => exact ⟨_, _, rfl, rfl⟩

theorem scanProject_scans :
    Scans plan outside [file] stale s (scanProject plan info (report, stale) file s) := by
  rw [scanProject_eq, bind_apply]
  cases hc : RunM.checkpoint s with
  | error stop s' =>
    obtain ⟨_, due, rfl⟩ := RunM.checkpoint_eq_error hc
    refine .cancelled (.checked _ s) fun passes => ?_
    cases due.symm.trans (Cancellation.passes_succ_iff.mp passes).left
  | ok _ s' =>
    obtain ⟨undue, rfl⟩ := RunM.checkpoint_eq_ok hc
    obtain ⟨report', s', found, same⟩ := collect_apply plan info report stale file s.world.disk s.checked
    have one : staleOf plan s.world.disk file = [file].flatMap (staleOf plan s.world.disk) := by simp
    rw [one] at found
    change Scans _ _ _ _ _ (collect info report stale file (staleIn plan s.world.disk file) s.checked)
    rw [found]
    refine .ended (same ▸ .checked _ s) fun n => ?_
    rw [same, List.length_singleton, Nat.add_comm, Cancellation.passes_succ_iff, and_iff_right undue]
    rfl

theorem Scans.cons {found : CategoryReport × List StaleReference} {s' : RunState σ}
    {r : EStateM.Result RunStop (RunState σ) (CategoryReport × List StaleReference)}
    (first : Scans plan outside [file] stale s (.ok found s'))
    (rest : Scans plan outside files found.2 s' r) : Scans plan outside (file :: files) stale s r := by
  cases first with
  | ended calls passes =>
    cases rest with
    | ended calls' passes' =>
      rw [calls.disk_eq, List.append_assoc, ← List.flatMap_append]
      refine .ended (calls.trans calls') fun n => ?_
      rw [← passes', ← passes, List.length_cons, List.length_singleton, Nat.add_comm 1,
        Nat.add_right_comm]
    | cancelled calls' due =>
      refine .cancelled (calls.trans calls') fun all => due ((passes _).mp ?_)
      rwa [List.length_singleton, Nat.add_comm]

theorem foldlM_scans : Scans plan outside files stale s
    (files.foldlM (scanProject plan info) (report, stale) s) := by
  induction files generalizing report stale s with
  | nil =>
    have none : stale = stale ++ [].flatMap (staleOf plan s.world.disk) := (List.append_nil stale).symm
    have ended : Scans plan outside [] stale s (.ok (report, stale ++ _) s) :=
      .ended .refl fun n => by rw [List.length_nil, Nat.zero_add]
    rwa [← none] at ended
  | cons file files ih =>
    rw [List.foldlM_cons, bind_apply]
    have first : Scans plan outside [file] stale s (scanProject plan info (report, stale) file s) :=
      scanProject_scans
    cases h : scanProject plan info (report, stale) file s with
    | ok found s' =>
      rw [h] at first
      exact first.cons ih
    | error stop s' =>
      rw [h] at first
      cases first with
      | cancelled calls due =>
        refine .cancelled calls fun passes => due (passes.mono ?_)
        simp

-- The tool is started for stale references unless the run is dry or told to stop.
theorem upgradePackages_calls :
    Calls outside s.world
      (if plan.dryRun = false ∧ s.world.cancellation.isDue = false then
        [toolCall plan (StaleReference.usedPrefixes plan.settings.packages.prefixes stale)] else [])
      (RunM.final (upgradePackages plan outside info report stale s)).world := by
  unfold upgradePackages
  dsimp only
  cases dry : plan.dryRun with
  | true => exact .refl
  | false =>
    rw [if_neg Bool.false_ne_true, bind_apply]
    cases hc : RunM.checkpoint s with
    | error stop s' =>
      obtain ⟨_, due, rfl⟩ := RunM.checkpoint_eq_error hc
      rw [due]
      exact .checked _ s
    | ok _ s' =>
      obtain ⟨undue, rfl⟩ := RunM.checkpoint_eq_ok hc
      rw [if_pos ⟨rfl, undue⟩]
      have started := (Calls.checked outside s).start
        (toolCall plan (StaleReference.usedPrefixes plan.settings.packages.prefixes stale))
      dsimp only
      rw [bind_apply, RunM.ask_apply]
      dsimp only
      cases (outside.runTool _ s.checked.world).1 with
      | error e => exact started
      | ok output =>
        dsimp only
        split <;> exact started

-- What comes behind the scan.
theorem upgrade_calls :
    Calls outside s.world
      (if stale ≠ [] ∧ plan.dryRun = false ∧ s.world.cancellation.isDue = false then
        [toolCall plan (StaleReference.usedPrefixes plan.settings.packages.prefixes stale)] else [])
      (RunM.final ((if stale.isEmpty then return report
        else upgradePackages plan outside info report stale : RunM σ CategoryReport) s)).world := by
  cases stale with
  | nil => exact .refl
  | cons r rest =>
    have calls : Calls outside s.world _
        (RunM.final (upgradePackages plan outside info report (r :: rest) s)).world :=
      upgradePackages_calls
    simpa using calls

theorem starts_iff {s' : RunState σ} (enabled : plan.settings.packages.enabled)
    (passes : ∀ n, s.world.cancellation.Passes (files.length + n) ↔ s'.world.cancellation.Passes n) :
    Starts plan files s ↔ files.flatMap (staleOf plan s.world.disk) ≠ [] ∧
      plan.dryRun = false ∧ s'.world.cancellation.isDue = false := by
  have last : s.world.cancellation.Passes (files.length + 1) ↔ s'.world.cancellation.isDue = false := by
    rw [passes, Cancellation.passes_succ_iff, and_iff_left Cancellation.passes_zero]
  constructor
  case mp =>
    intro starts
    exact ⟨exists_isStaleIn_iff.mp starts.stale, starts.wet, last.mp starts.unsignalled⟩
  case mpr =>
    rintro ⟨stale, wet, undue⟩
    exact ⟨enabled, wet, last.mpr undue, exists_isStaleIn_iff.mpr stale⟩

-- The category as a whole: it scans its projects first, if it is enabled.
theorem packages_calls (plan : RunPlan) (outside : Collaborators σ) (info : UpgraderInfo)
    (files : List String) (s : RunState σ) :
    ∃ calls, Calls outside s.world calls (RunM.final (packages plan outside info files s)).world ∧
      (Starts plan files s ∧ calls = [toolCall plan (StaleReference.usedPrefixes
          plan.settings.packages.prefixes (files.flatMap (staleOf plan s.world.disk)))] ∨
        ¬Starts plan files s ∧ calls = []) := by
  unfold packages
  dsimp only
  split
  case isFalse disabled => exact ⟨[], .refl, .inr ⟨fun starts => disabled starts.enabled, rfl⟩⟩
  case isTrue enabled =>
    rw [bind_apply]
    have scans : Scans plan outside files [] s
        (files.foldlM (scanProject plan info) ({ name := info.name }, []) s) := foldlM_scans
    cases h : files.foldlM (scanProject plan info) ({ name := info.name }, []) s with
    | error stop s' =>
      rw [h] at scans
      cases scans with
      | cancelled calls due =>
        refine ⟨[], calls, .inr ⟨fun starts => due (starts.unsignalled.mono ?_), rfl⟩⟩
        exact Nat.le_succ _
    | ok found s' =>
      rw [h] at scans
      cases scans with
      | ended calls passes =>
        refine ⟨_, calls.trans upgrade_calls, ?_⟩
        rw [List.nil_append, List.nil_append]
        by_cases starts : Starts plan files s
        case pos =>
          rw [if_pos ((starts_iff enabled passes).mp starts)]
          exact .inl ⟨starts, rfl⟩
        case neg =>
          rw [if_neg (mt (starts_iff enabled passes).mpr starts)]
          exact .inr ⟨starts, rfl⟩

-- The prefixes to include, by the stale packages.
theorem mem_usedPrefixes_staleOf {disk : Disk} {prefixes : List String} {p : String} :
    p ∈ StaleReference.usedPrefixes prefixes (files.flatMap (staleOf plan disk)) ↔
      p ∈ prefixes ∧ ∃ package, IsStaleIn plan disk files package ∧ p.toList <+: package.toList := by
  rw [StaleReference.mem_usedPrefixes_iff]
  refine and_congr_right fun _ => ⟨?mp, ?mpr⟩
  case mp =>
    rintro ⟨r, hr, follows⟩
    exact ⟨r.package, exists_mem_flatMap_staleOf.mp ⟨r, hr, rfl⟩, follows⟩
  case mpr =>
    rintro ⟨package, stale, follows⟩
    obtain ⟨r, hr, rfl⟩ := exists_mem_flatMap_staleOf.mpr stale
    exact ⟨r, hr, follows⟩

-- In a run of the category the tool is called once where it starts, and else never, as the log of its
-- calls shows. It includes the configured prefixes of stale packages in ascending order, so that each
-- stale package follows one of them.
theorem packages_starts (plan : RunPlan) (outside : Collaborators σ) (info : UpgraderInfo)
    (files : List String) (s : RunState σ) :
    ∃ included calls,
      included.Pairwise (· < ·) ∧
      (∀ p, p ∈ included ↔ p ∈ plan.settings.packages.prefixes ∧
        ∃ package, IsStaleIn plan s.world.disk files package ∧ p.toList <+: package.toList) ∧
      (∀ package, IsStaleIn plan s.world.disk files package →
        ∃ p ∈ included, p.toList <+: package.toList) ∧
      (Starts plan files s ∧ calls = [toolCall plan included] ∨ ¬Starts plan files s ∧ calls = []) ∧
      Calls outside s.world calls (RunM.final (packages plan outside info files s)).world ∧
      ∀ log, outside.Logs log →
        log (RunM.final (packages plan outside info files s)).world.outside
          = log s.world.outside ++ calls := by
  obtain ⟨calls, world, starts⟩ := packages_calls plan outside info files s
  refine ⟨_, calls, StaleReference.pairwise_usedPrefixes .., fun p => mem_usedPrefixes_staleOf,
    fun package stale => ?_, starts, world, fun log logs => world.log_eq logs⟩
  have ⟨p, hp, follows⟩ := stale.follows
  exact ⟨p, mem_usedPrefixes_staleOf.mpr ⟨hp, package, stale, follows⟩, follows⟩

theorem packages_starts_behind_malformed :
    let plan : RunPlan :=
      { readers := .standard
        workspace := ⟨⟨"/", "work"⟩, "", ["bad.csproj", "app.csproj"]⟩
        channel := .ofNumbers 8 0
        policy := {}
        settings := {}
        dryRun := false }
    let outside : Collaborators (List ToolCall) :=
      { runTool := fun call w => (.ok { exitCode := some 0 }, { w with outside := w.outside ++ [call] })
        registry := none }
    let reference := "<PackageReference Include=\"Microsoft.Extensions.Logging\" Version=\"6.0.0\" />"
    let s : RunState (List ToolCall) :=
      { world :=
        { disk :=
          { entries := [("bad.csproj", .file "<Project".toUTF8),
              ("app.csproj", .file ("<Project>" ++ reference ++ "</Project>").toUTF8)] }
          outside := [] } }
    ∃ included, (∃ p ∈ included, p.toList <+: "Microsoft.Extensions.Logging".toList) ∧
      (RunM.final (packages plan outside Upgrader.packageVersions plan.workspace.files s)).world.outside
        = [toolCall plan included] := by
  intro plan outside reference s
  have stale : IsStaleIn plan s.world.disk plan.workspace.files "Microsoft.Extensions.Logging" :=
    exists_mem_flatMap_staleOf.mp (by decide +kernel)
  have starts : Starts plan plan.workspace.files s := ⟨rfl, rfl, nofun, _, stale⟩
  have ⟨included, calls, _, _, covered, called, _, log⟩ :=
    packages_starts plan outside Upgrader.packageVersions plan.workspace.files s
  obtain ⟨_, rfl⟩ | ⟨not, _⟩ := called
  case inl => exact ⟨included, covered _ stale, log id fun _ _ => rfl⟩
  case inr => exact absurd starts not

end Run
end Repin
