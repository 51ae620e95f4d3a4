import Repin.Proofs.Run.Outcome
import Repin.Proofs.Upgrader.Explanation
/-!
# Gates in a run

Why candidates are gated is told once for a category, of the first file that has a gated one. The flag for
it outlives the file, and all else that is done and told goes on around it: each file with a gated candidate
still counts as a warning. Main statement: `reviseFiles_explains_once`.
-/
namespace Repin

-- Whether it is told why candidates are gated.
def Diagnostic.explains (d : Diagnostic) (channel : Channel) : Bool :=
  UpgradePolicy.explains channel d.message

namespace Run

variable {σ : Type} {plan : RunPlan} {outside : Collaborators σ} {rules : DocumentRules}
variable {file : String} {files : List String} {p p' q : Progress} {s s' : RunState σ}

section behind

-- A category that goes on behind what was reported of it before.
def Progress.behind (q : Progress) (r : CategoryReport) : Progress :=
  { q with
    report :=
      { r with
        outcome := r.outcome.worse q.report.outcome
        filesScanned := r.filesScanned + q.report.filesScanned
        changes := r.changes ++ q.report.changes } }

variable {r : CategoryReport}

theorem Progress.behind_scanned (outcome : Severity) :
    (q.behind r).scanned outcome = (q.scanned outcome).behind r := by
  simp only [behind, scanned, CategoryReport.record, Std.Associative.assoc]

theorem Progress.behind_changed (change : FileChange) :
    (q.behind r).changed change = (q.changed change).behind r := by
  simp only [behind, changed, List.append_assoc]

theorem carryOut_behind {category : String} {source : SourceDocument} {patch : PatchSet}
    {judged : Severity} : carryOut plan category file source patch judged (q.behind r)
      = (Progress.behind · r) <$> (carryOut plan category file source patch judged q : RunM σ _) := by
  simp only [carryOut, map_bind, Progress.behind_scanned, Progress.behind_changed]
  refine congrArg _ (funext fun text => congrArg _ (funext fun diff => ?_))
  split
  case isTrue => rfl
  case isFalse =>
    rw [map_bind]
    refine congrArg _ (funext fun answer => ?_)
    cases answer <;> rfl

theorem judge_behind {source : SourceDocument} {candidates : List Candidate} :
    judge plan outside rules file source candidates (q.behind r)
      = (Progress.behind · r) <$> judge plan outside rules file source candidates q := by
  simp only [judge, map_bind]
  refine congrArg _ (funext fun verdicts => congrArg _ (funext fun _ => ?_))
  refine congrArg _ (funext fun patch => ?_)
  split
  case isTrue => exact carryOut_behind (q := q.explaining verdicts)
  case isFalse => exact congrArg pure ((q.explaining verdicts).behind_scanned _)

-- The step of a file does not depend on what was reported before.
theorem reviseFile_behind : reviseFile plan outside rules (q.behind r) file
    = (Progress.behind · r) <$> reviseFile plan outside rules q file := by
  simp only [reviseFile_eq, map_bind]
  refine congrArg _ (funext fun _ => congrArg _ (funext fun s => ?_))
  cases examine plan rules s.world.disk file with
  | error e =>
    simp only [handle, map_bind, Progress.behind_scanned]
    rfl
  | ok read =>
    simp only [handle, map_bind]
    exact congrArg _ (funext fun candidates => judge_behind)

end behind

-- The turn of a file in the run of a category: the state in which it begins, and whether it was told
-- before why candidates are gated.
structure FileTurn (σ : Type) where
  file : String
  explained : Bool
  state : RunState σ

-- The turns of files in the run of a category that goes on from some state, as far as it comes.
def fileTurns (plan : RunPlan) (outside : Collaborators σ) (rules : DocumentRules) :
    List String → Progress → RunState σ → List (FileTurn σ)
  | [], _, _ => []
  | file :: files, p, s =>
    ⟨file, p.explained, s⟩ ::
      match reviseFile plan outside rules p file s with
      | .ok p' s' => fileTurns plan outside rules files p' s'
      | .error _ _ => []

namespace FileTurn

-- The candidates in the file as the turn finds it.
def candidates (plan : RunPlan) (rules : DocumentRules) (t : FileTurn σ) : List Candidate :=
  match examine plan rules t.state.world.disk t.file with
  | .ok (_, .ok candidates) => candidates
  | .ok (_, .error _) | .error _ => []

-- The category without what was reported of the files before.
def start (rules : DocumentRules) (t : FileTurn σ) : Progress :=
  { report := { name := rules.info.name }, explained := t.explained }

-- What the turn reports, by itself.
def report (plan : RunPlan) (outside : Collaborators σ) (rules : DocumentRules) (t : FileTurn σ) :
    CategoryReport :=
  match reviseFile plan outside rules (t.start rules) t.file t.state with
  | .ok p _ => p.report
  | .error _ _ => (t.start rules).report

theorem report_eq {t : FileTurn σ}
    (h : reviseFile plan outside rules (t.start rules) t.file t.state = .ok q s') :
    t.report plan outside rules = q.report := by
  rw [report, h]

-- What explains the first gate in the file.
def explanation? (plan : RunPlan) (rules : DocumentRules) (t : FileTurn σ) : Option Diagnostic :=
  (Revision.explanation? plan.policy plan.channel (t.candidates plan rules)).map
    (⟨.warning, rules.info.name, some t.file, .decide, ·⟩)

theorem isSome_explanation? {t : FileTurn σ} : (t.explanation? plan rules).isSome ↔
    ∃ c ∈ t.candidates plan rules, plan.policy.withholds plan.channel c := by
  rw [explanation?, Option.isSome_map, Revision.isSome_explanation?]

-- What a turn does that comes to its end.
structure Ended (plan : RunPlan) (rules : DocumentRules) (t : FileTurn σ) (q : Progress)
    (s' : RunState σ) : Prop where
  told : ∃ told, s'.diagnostics = t.state.diagnostics ++ told ∧
    told.filter (·.explains plan.channel)
      = if t.explained then [] else (t.explanation? plan rules).toList
  explained : q.explained = (t.explained || (t.explanation? plan rules).isSome)
  warned : (t.explanation? plan rules).isSome → Severity.warning.rank ≤ q.report.outcome.rank
  spared : ∀ c ∈ t.candidates plan rules, plan.policy.allows c.token.kind plan.channel = false →
    ∀ change ∈ q.report.changes, change.path = t.file ∧
      ∀ e ∈ change.edits, e.span ≠ c.span ∧ e.span.overlaps c.span = false

end FileTurn

section weighed

variable {source : SourceDocument} {found : List (Candidate × Verdict)} {patch : PatchSet}
variable {w : RunState σ} {t : FileTurn σ}

theorem Weighed.heeds (h : Weighed plan outside rules file s source found patch w) :
    ∀ f ∈ found, Revision.Heeds plan.policy plan.channel f.1 f.2 := by
  have ⟨_, _, judged⟩ := h.judged
  have heeds := forall₂_of_mapM (P := Revision.Heeds plan.policy plan.channel)
    Revision.heeds_of_verdict judged
  rw [List.forall₂_map_left_iff, List.forall₂_map_right_iff, List.forall₂_same] at heeds
  exact heeds

-- The candidates of a turn are those that it has a verdict on.
theorem Weighed.candidates_eq (h : Weighed plan outside rules t.file t.state source found patch w) :
    t.candidates plan rules = found.map Prod.fst := by
  rw [FileTurn.candidates, h.examined]

theorem Weighed.explained (h : Weighed plan outside rules t.file t.state source found patch w) :
    (found.map Prod.snd).contains .gated = (t.explanation? plan rules).isSome := by
  rw [Bool.eq_iff_iff, List.contains_iff_mem, Revision.gated_mem_iff h.heeds,
    FileTurn.isSome_explanation?, h.candidates_eq]

theorem Weighed.filter_noticesOf (h : Weighed plan outside rules t.file t.state source found patch w) :
    (noticesOf plan rules t.file (t.start rules) found).filter (·.explains plan.channel)
      = if t.explained then [] else (t.explanation? plan rules).toList := by
  rw [noticesOf, List.filter_map]
  have told := Revision.filter_notices h.heeds t.explained
  rw [← h.candidates_eq] at told
  change List.map _ ((Revision.notices plan.channel t.explained found).filter
    (UpgradePolicy.explains plan.channel)) = _
  rw [told, FileTurn.explanation?]
  cases t.explained <;> cases Revision.explanation? .. <;> rfl

theorem Weighed.warned (h : Weighed plan outside rules t.file t.state source found patch w)
    (gated : (t.explanation? plan rules).isSome) :
    Severity.warning.rank ≤ (Revision.severityOf (found.map Prod.snd)).rank := by
  rw [← h.explained, List.contains_iff_mem] at gated
  rw [Revision.severityOf_eq_worst]
  exact Severity.rank_worst_le_iff.mp (Nat.le_refl _) _ (List.mem_map_of_mem (f := Verdict.severity) gated)

end weighed

theorem not_explains_documentError {level : Severity} {category : String} {stage : Stage}
    (e : DocumentError) :
    Diagnostic.explains ⟨level, category, some file, stage, e.message⟩ plan.channel = false :=
  UpgradePolicy.explains_of_isForeign (.of_documentError e)

theorem spared_of_weighed {source : SourceDocument} {found : List (Candidate × Verdict)}
    {patch : PatchSet} {w : RunState σ} {t : FileTurn σ} {c : Candidate} {e : OutputEdit}
    (h : Weighed plan outside rules t.file t.state source found patch w)
    (hc : c ∈ t.candidates plan rules) (barred : plan.policy.allows c.token.kind plan.channel = false)
    (he : e ∈ patch.materialize t.file source.text) :
    e.span ≠ c.span ∧ e.span.overlaps c.span = false := by
  have ⟨_, located⟩ := examine_eq_ok_iff.mp h.examined
  rw [h.candidates_eq] at hc
  obtain ⟨edit, made, rfl⟩ := List.mem_map.mp he
  exact Revision.spared_of_mem_patchOf located h.heeds h.patched made hc barred

theorem FileTurn.ended_of_reviseFile {t : FileTurn σ}
    (h : reviseFile plan outside rules (t.start rules) t.file t.state = .ok q s') :
    t.Ended plan rules q s' := by
  cases reviseFile_ends h with
  | @unread e s₁ checked examined =>
    have empty : t.candidates plan rules = [] := by rw [candidates, examined]
    have unexplained : t.explanation? plan rules = none := by rw [explanation?, empty]; rfl
    have told := diagnostics_of_checkpoint checked
    exact {
      told := ⟨_, congrArg (· ++ _) told, by simp [not_explains_documentError, unexplained]⟩
      explained := by rw [unexplained, Option.isSome_none, Bool.or_false]; rfl
      warned := by simp [unexplained]
      spared := by simp [empty] }
  | @current source found patch w weighed =>
    exact {
      told := ⟨_, congrArg (· ++ _) weighed.diagnostics, weighed.filter_noticesOf⟩
      explained := congrArg (t.explained || ·) weighed.explained
      warned := fun gated => by
        rw [Progress.scanned_outcome, Severity.rank_worse]
        exact Nat.le_trans (weighed.warned gated) (Nat.le_max_right _ _)
      spared := nofun }
  | @changed source found patch w text diff disk weighed =>
    exact {
      told := ⟨_, congrArg (· ++ _) weighed.diagnostics, weighed.filter_noticesOf⟩
      explained := congrArg (t.explained || ·) weighed.explained
      warned := fun gated => by
        rw [Progress.scanned_outcome, Severity.rank_worse, Severity.rank_worse]
        exact Nat.le_trans (weighed.warned gated)
          (Nat.le_trans (Nat.le_max_left _ _) (Nat.le_max_right _ _))
      spared := fun c hc barred change listed => by
        cases List.mem_singleton.mp listed
        exact ⟨rfl, fun e he => spared_of_weighed weighed hc barred he⟩ }
  | @blocked source found patch w text diff e weighed =>
    exact {
      told := by
        refine ⟨_, congrArg (· ++ _) weighed.diagnostics, ?_⟩
        rw [List.filter_append, weighed.filter_noticesOf]
        simp [not_explains_documentError]
      explained := congrArg (t.explained || ·) weighed.explained
      warned := fun _ => by
        rw [Progress.scanned_outcome, Severity.rank_worse]
        exact Nat.le_trans (by decide) (Nat.le_max_right _ _)
      spared := nofun }

-- The step of a file, as its turn does it and as the category goes on.
theorem exists_of_reviseFile (h : reviseFile plan outside rules p file s = .ok p' s') :
    let t : FileTurn σ := ⟨file, p.explained, s⟩
    ∃ q, reviseFile plan outside rules (t.start rules) file s = .ok q s' ∧
      t.report plan outside rules = q.report ∧ p'.explained = q.explained ∧
      p'.report.outcome = p.report.outcome.worse q.report.outcome ∧
      p'.report.changes = p.report.changes ++ q.report.changes := by
  intro t
  have whole : p = (t.start rules).behind p.report := by
    simp [t, FileTurn.start, Progress.behind]
  rw [whole, reviseFile_behind, map_apply] at h
  split at h
  case h_2 => cases h
  case h_1 q s₁ step =>
    cases h
    exact ⟨q, step, FileTurn.report_eq step, rfl, rfl, rfl⟩

-- A category after the turns of some files, from what it was before them.
structure TurnsEnded (plan : RunPlan) (outside : Collaborators σ) (rules : DocumentRules)
    (turns : List (FileTurn σ)) (p : Progress) (s : RunState σ) (p' : Progress) (s' : RunState σ) :
    Prop where
  told : ∃ told, s'.diagnostics = s.diagnostics ++ told ∧
    told.filter (·.explains plan.channel)
      = if p.explained then [] else (turns.findSome? (·.explanation? plan rules)).toList
  outcome : p'.report.outcome = p.report.outcome.worse
    (Severity.worst (turns.map fun t => (t.report plan outside rules).outcome))
  changes : p'.report.changes
    = p.report.changes ++ turns.flatMap fun t => (t.report plan outside rules).changes
  ended : ∀ t ∈ turns, ∃ q s', t.report plan outside rules = q.report ∧ t.Ended plan rules q s'

-- Before the flag is set, no gate was met; behind it, none is explained.
theorem foldlM_reviseFile_ended (h : files.foldlM (reviseFile plan outside rules) p s = .ok p' s') :
    (fileTurns plan outside rules files p s).map (·.file) = files ∧
      TurnsEnded plan outside rules (fileTurns plan outside rules files p s) p s p' s' := by
  induction files generalizing p s with
  | nil =>
    cases h
    unfold fileTurns
    exact ⟨rfl, ⟨[], by simp⟩, by simp, by simp, by simp⟩
  | cons file files ih =>
    rw [List.foldlM_cons] at h
    have ⟨p₁, s₁, first, rest⟩ := exists_of_bind h
    have ⟨q, alone, report, explained, outcome, changes⟩ := exists_of_reviseFile first
    have here := FileTurn.ended_of_reviseFile alone
    have ⟨listed, later⟩ := ih rest
    have ⟨told, before, filtered⟩ := here.told
    have ⟨more, after, filtered'⟩ := later.told
    rw [explained, here.explained] at filtered'
    rw [fileTurns, first]
    refine ⟨congrArg _ listed, ⟨told ++ more, ?told⟩, ?outcome, ?changes, ?ended⟩
    case told =>
      rw [after, before, List.append_assoc, List.filter_append, filtered, filtered', List.findSome?_cons]
      refine ⟨rfl, ?_⟩
      dsimp only
      cases p.explained <;> cases FileTurn.explanation? .. <;> simp
    case outcome =>
      rw [later.outcome, outcome, List.map_cons, Severity.worst_cons, report]
      ac_rfl
    case changes => rw [later.changes, changes, List.flatMap_cons, report, List.append_assoc]
    case ended => exact List.forall_mem_cons.mpr ⟨⟨q, s₁, report, here⟩, later.ended⟩

-- A category that has anything to do comes to its end behind the turns of its files.
theorem exists_of_reviseFiles {report : CategoryReport} (applies : rules.appliesTo plan.channel)
    (h : reviseFiles plan outside rules files s = .ok report s') :
    ∃ p, files.foldlM (reviseFile plan outside rules) { report := { name := rules.info.name } } s
        = .ok p s' ∧
      report.outcome = p.report.outcome ∧ report.changes = p.report.changes := by
  unfold reviseFiles at h
  rw [if_pos applies] at h
  obtain ⟨p, s₁, steps, h⟩ := exists_of_bind h
  dsimp only at h
  split at h <;> cases h <;> exact ⟨p, steps, rfl, rfl⟩

-- A gate is explained exactly if the channel is withheld from a candidate of some file.
theorem isSome_findSome?_explanation? {turns : List (FileTurn σ)} :
    (turns.findSome? (·.explanation? plan rules)).isSome ↔ plan.channel.isSupportedLts = false ∧
      ∃ t ∈ turns, ∃ c ∈ t.candidates plan rules,
        plan.policy.gates c.token.kind ∧ c.token.isAtLeast plan.channel = false := by
  simp only [List.isSome_findSome?, List.any_eq_true, FileTurn.isSome_explanation?,
    UpgradePolicy.withholds_iff]
  constructor
  case mp =>
    rintro ⟨t, ht, c, hc, ⟨gated, unsupported⟩, below⟩
    exact ⟨unsupported, t, ht, c, hc, gated, below⟩
  case mpr =>
    rintro ⟨unsupported, t, ht, c, hc, gated, below⟩
    exact ⟨t, ht, c, hc, ⟨gated, unsupported⟩, below⟩

-- Whatever the channel, the policy and the files are: once a category has come to its end, it was told why
-- candidates are gated exactly if one was, and then once, of the first file with such a candidate. Each
-- file with one counts as a warning at least. Candidates of gated kinds get no edit unless the channel is a
-- supported LTS, and no edit of another candidate reaches into them.
theorem reviseFiles_explains_once {report : CategoryReport} (applies : rules.appliesTo plan.channel)
    (done : reviseFiles plan outside rules files s = .ok report s') :
    let turns := fileTurns plan outside rules files { report := { name := rules.info.name } } s
    turns.map (·.file) = files ∧
    (∃ told, s'.diagnostics = s.diagnostics ++ told ∧
      told.filter (·.explains plan.channel)
        = (turns.findSome? (·.explanation? plan rules)).toList ∧
      told.countP (·.explains plan.channel) =
        if plan.channel.isSupportedLts = false ∧ ∃ t ∈ turns, ∃ c ∈ t.candidates plan rules,
          plan.policy.gates c.token.kind ∧ c.token.isAtLeast plan.channel = false then 1 else 0) ∧
    report.changes = (turns.flatMap fun t => (t.report plan outside rules).changes) ∧
    report.outcome = Severity.worst (turns.map fun t => (t.report plan outside rules).outcome) ∧
    ∀ t ∈ turns, ∀ c ∈ t.candidates plan rules,
      plan.policy.gates c.token.kind → plan.channel.isSupportedLts = false →
        (∀ change ∈ (t.report plan outside rules).changes, change.path = t.file ∧
          ∀ e ∈ change.edits, e.span ≠ c.span ∧ e.span.overlaps c.span = false) ∧
        (c.token.isAtLeast plan.channel = false →
          Severity.warning.rank ≤ (t.report plan outside rules).outcome.rank) := by
  intro turns
  have ⟨p, steps, outcome, changes⟩ := exists_of_reviseFiles applies done
  have ⟨listed, ended⟩ := foldlM_reviseFile_ended steps
  have ⟨told, diagnostics, filtered⟩ := ended.told
  refine ⟨listed, ⟨told, diagnostics, filtered, ?count⟩, ?changes, ?outcome, ?turn⟩
  case count =>
    rw [List.countP_eq_length_filter, filtered]
    simp only [← isSome_findSome?_explanation?]
    cases turns.findSome? (·.explanation? plan rules) <;> rfl
  case changes => rw [changes, ended.changes]; rfl
  case outcome => rw [outcome, ended.outcome]; exact Severity.none_worse _
  case turn =>
    intro t ht c hc gated unsupported
    have ⟨q, s₂, report, here⟩ := ended.ended t ht
    rw [report]
    have barred := UpgradePolicy.allows_eq_false_iff.mpr ⟨gated, unsupported⟩
    refine ⟨here.spared c hc barred, fun below => here.warned (FileTurn.isSome_explanation?.mpr ?_)⟩
    exact ⟨c, hc, UpgradePolicy.withholds_iff.mpr ⟨⟨gated, unsupported⟩, below⟩⟩

-- The settings of three functions: the framework of one, and the managed runtimes of the others, which
-- stay behind a channel that is no LTS.
def lambdaFiles : List String :=
  ["api/", "jobs/", "mail/"].map (· ++ "aws-lambda-tools-defaults.json")

def lambdaPlan : RunPlan :=
  { sharedPlan with workspace := ⟨⟨"", "."⟩, "", lambdaFiles⟩, channel := .ofNumbers 9 0 }

def lambdaWorld : World Unit where
  disk :=
    let runtime := "\x7b\"function-runtime\":\"dotnet6\"\x7d"
    { entries := lambdaFiles.zip
        (["\x7b\"framework\":\"net6.0\"\x7d", runtime, runtime].map fun text => .file text.toUTF8) }
  outside := ()

-- The first of two gates is explained, and the file of the second counts as a warning all the same.
theorem reviseFiles_explains_once_lambda : ∃ report s' told,
    Upgrader.awsLambda.appliesTo lambdaPlan.channel ∧
    reviseFiles lambdaPlan noCollaborators Upgrader.awsLambda lambdaFiles { world := lambdaWorld }
      = .ok report s' ∧
    s'.diagnostics = told ∧
    told.filter (·.explains lambdaPlan.channel) = [⟨.warning, "aws-lambda",
      some "jobs/aws-lambda-tools-defaults.json", .decide,
      UpgradePolicy.explain .managedRuntime lambdaPlan.channel⟩] ∧
    report.changes.map (·.path) = ["api/aws-lambda-tools-defaults.json"] ∧
    report.outcome = .warning := by
  let turns := fileTurns lambdaPlan noCollaborators Upgrader.awsLambda lambdaFiles
    { report := { name := "aws-lambda" } } { world := lambdaWorld }
  have first : (turns.findSome? (·.explanation? lambdaPlan Upgrader.awsLambda)).toList
      = [⟨.warning, "aws-lambda", some "jobs/aws-lambda-tools-defaults.json", .decide,
        UpgradePolicy.explain .managedRuntime lambdaPlan.channel⟩] := by decide +kernel
  have evaluated : (match reviseFiles lambdaPlan noCollaborators Upgrader.awsLambda lambdaFiles
        { world := lambdaWorld } with
      | .ok report _ => some (report.changes.map (·.path), report.outcome)
      | .error _ _ => none)
        = some (["api/aws-lambda-tools-defaults.json"], .warning) := by decide +kernel
  cases ran : reviseFiles lambdaPlan noCollaborators Upgrader.awsLambda lambdaFiles
      { world := lambdaWorld } with
  | error =>
    rw [ran] at evaluated
    cases evaluated
  | ok report s' =>
    rw [ran] at evaluated
    have ⟨paths, outcome⟩ := Prod.mk.inj (Option.some.inj evaluated)
    have ⟨_, ⟨told, diagnostics, explained, _⟩, _⟩ := reviseFiles_explains_once rfl ran
    exact ⟨report, s', told, rfl, rfl, diagnostics, explained.trans first, paths, outcome⟩

end Run
end Repin
