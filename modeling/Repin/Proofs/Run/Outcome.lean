import Repin.Proofs.Report.Severity
import Repin.Proofs.Run.DryRun
import Repin.Proofs.Run.Ending
/-!
# What outcomes tell

How well a category went is the worst of what was told of it, or success where it has something for the
changelog and nothing bad was told. Main statement: `execute_outcomes`.
-/
namespace Repin

variable {σ : Type} {outside : Collaborators σ} {plan : RunPlan} {s s' : RunState σ}

-- How well something went that had an effect or none, and of which some diagnostics were told.
def outcomeOf (effect : Bool) (told : List Diagnostic) : Severity :=
  (if effect then Severity.success else .none).worse (Severity.worst (told.map (·.level)))

theorem outcomeOf_append {effect : Bool} {told more : List Diagnostic} :
    outcomeOf effect (told ++ more)
      = (outcomeOf effect told).worse (Severity.worst (more.map (·.level))) := by
  rw [outcomeOf, outcomeOf, List.map_append, Severity.worst_append]
  ac_rfl

theorem outcomeOf_true (effect : Bool) (told : List Diagnostic) :
    outcomeOf true told = (outcomeOf effect told).worse .success := by
  apply Severity.eq_of_rank
  simp only [outcomeOf, Severity.rank_worse]
  cases effect
  all_goals
    simp only [Bool.false_eq_true, if_true, if_false, Severity.rank]
    omega

-- The levels of what a report tells of a category.
def RunReport.levelsOf (r : RunReport) (name : String) : List Severity :=
  (r.diagnostics.filter (·.category == name)).map (·.level)

-- The categories of a report of which an error was told, in their order.
def RunReport.troubled (r : RunReport) : List String :=
  (r.categories.map (·.name)).filter fun name => .error ∈ r.levelsOf name

theorem RunReport.finish_categories (r : RunReport) (c : CategoryReport) :
    (r.finish c).categories = r.categories ++ [c] := rfl

theorem RunReport.finish_changelog (r : RunReport) (c : CategoryReport) :
    (r.finish c).changelog = r.changelog ++ c.changelog.toList := rfl

theorem RunReport.finish_outcome (r : RunReport) (c : CategoryReport) :
    (r.finish c).outcome = r.outcome.worse c.outcome := rfl

theorem Verdict.severity_mild (v : Verdict) : v.severity = .none ∨ v.severity = .warning := by
  cases v <;> simp [severity]

namespace Revision

theorem severityOf_eq_worst (verdicts : List Verdict) :
    severityOf verdicts = Severity.worst (verdicts.map Verdict.severity) := by
  rw [severityOf, Severity.worst, List.foldl_map]

theorem severityOf_mild (verdicts : List Verdict) :
    severityOf verdicts = .none ∨ severityOf verdicts = .warning := by
  rw [severityOf_eq_worst]
  refine Severity.worst_of_mild fun level listed => ?_
  obtain ⟨v, _, rfl⟩ := List.mem_map.mp listed
  exact v.severity_mild

-- There is nothing to tell where nothing was in the way, or where all of it was told before.
theorem notices_eq_nil_iff {channel : Channel} {told : Bool} {found : List (Candidate × Verdict)} :
    notices channel told found = [] ↔
      ∀ f ∈ found, f.2.severity = .none ∨ (told ∧ f.2 = .gated) := by
  induction found with
  | nil => simp [notices]
  | cons f found ih =>
    obtain ⟨c, v⟩ := f
    cases v <;> cases told <;> simp_all [notices, Verdict.severity]

end Revision

namespace Run

variable {rules : DocumentRules} {file : String} {files : List String} {p p' : Progress}
variable {told : List Diagnostic} {found : List (Candidate × Verdict)}

theorem worst_noticesOf_mild (plan : RunPlan) (rules : DocumentRules) (file : String) (p : Progress)
    (found : List (Candidate × Verdict)) :
    Severity.worst ((noticesOf plan rules file p found).map (·.level)) = .none ∨
      Severity.worst ((noticesOf plan rules file p found).map (·.level)) = .warning := by
  refine Severity.worst_of_mild fun level listed => .inr ?_
  simp only [noticesOf, List.map_map, List.mem_map, Function.comp_apply] at listed
  obtain ⟨_, _, rfl⟩ := listed
  rfl

theorem worst_noticesOf_eq_none_iff :
    Severity.worst ((noticesOf plan rules file p found).map (·.level)) = .none ↔
      ∀ f ∈ found, f.2.severity = .none ∨ (p.explained ∧ f.2 = .gated) := by
  have silent := @Revision.notices_eq_nil_iff plan.channel p.explained found
  rw [← silent, Severity.worst_eq_none_iff, noticesOf]
  cases Revision.notices plan.channel p.explained found <;> simp

-- A category of documents under way: its outcome is as told, and if it was told why candidates are gated,
-- that was told with a warning.
structure Tallied (told : List Diagnostic) (p : Progress) : Prop where
  outcome : p.report.outcome = outcomeOf (!p.report.changes.isEmpty) told
  explained : p.explained → Severity.warning.rank ≤ (Severity.worst (told.map (·.level))).rank

-- What the verdicts on a file add to the outcome is what is told of them, or it was told before.
theorem Tallied.weighs (tallied : Tallied told p) (plan : RunPlan) (rules : DocumentRules)
    (file : String) (found : List (Candidate × Verdict)) :
    let levels := (told ++ noticesOf plan rules file p found).map (·.level)
    (Severity.worst (told.map (·.level))).worse (Revision.severityOf (found.map Prod.snd))
      = Severity.worst levels ∧
    ((p.explaining (found.map Prod.snd)).explained → Severity.warning.rank ≤ (Severity.worst levels).rank) := by
  intro levels
  have split : Severity.worst levels = (Severity.worst (told.map (·.level))).worse
      (Severity.worst ((noticesOf plan rules file p found).map (·.level))) := by
    rw [← Severity.worst_append, ← List.map_append]
  have calm : Revision.severityOf (found.map Prod.snd) = .none ↔ ∀ f ∈ found, f.2.severity = .none := by
    rw [Revision.severityOf_eq_worst, Severity.worst_eq_none_iff]
    simp only [List.map_map, List.forall_mem_map, Function.comp_apply]
  rcases worst_noticesOf_mild plan rules file p found with quiet | loud
  case inl =>
    have all := worst_noticesOf_eq_none_iff.mp quiet
    rw [split, quiet, Severity.worse_none]
    by_cases explained : p.explained
    case pos =>
      have before := tallied.explained explained
      refine ⟨Severity.worse_of_rank_le ?_, fun _ => before⟩
      rcases Revision.severityOf_mild (found.map Prod.snd) with h | h <;> rw [h]
      · exact Nat.zero_le _
      · exact before
    case neg =>
      have none : ∀ f ∈ found, f.2.severity = .none := by simpa [explained] using all
      refine ⟨by rw [calm.mpr none, Severity.worse_none], fun gated => ?_⟩
      simp only [Progress.explaining, explained, Bool.false_or, List.contains_iff_mem,
        List.mem_map] at gated
      obtain ⟨f, listed, gated⟩ := gated
      have mild := none f listed
      rw [gated] at mild
      cases mild
  case inr =>
    have warned : Revision.severityOf (found.map Prod.snd) = .warning := by
      refine (Revision.severityOf_mild _).resolve_left fun h => ?_
      have quiet : Severity.worst ((noticesOf plan rules file p found).map (·.level)) = .none :=
        worst_noticesOf_eq_none_iff.mpr fun f listed => .inl (calm.mp h f listed)
      rw [quiet] at loud
      cases loud
    rw [split, loud, warned, Severity.rank_worse]
    exact ⟨rfl, fun _ => Nat.le_max_right _ _⟩

theorem diagnostics_of_checkpoint {s s' : RunState σ} (h : RunM.checkpoint s = .ok () s') :
    s'.diagnostics = s.diagnostics := by
  rw [(RunM.checkpoint_eq_ok h).2]
  rfl

-- What a step adds to the outcome it tells.
theorem reviseFile_tallied (h : reviseFile plan outside rules p file s = .ok p' s')
    (tallied : Tallied told p) :
    ∃ more, s'.diagnostics = s.diagnostics ++ more ∧ Tallied (told ++ more) p' := by
  cases reviseFile_ends h with
  | unread checked =>
    refine ⟨_, by rw [RunState.telling_diagnostics, diagnostics_of_checkpoint checked], ?_, ?_⟩
    case refine_1 =>
      rw [Progress.scanned_outcome, outcomeOf_append, tallied.outcome]
      rfl
    case refine_2 =>
      intro explained
      rw [List.map_append, Severity.worst_append, Severity.rank_worse]
      exact Nat.le_trans (tallied.explained explained) (Nat.le_max_left _ _)
  | @current source found patch w weighed =>
    have ⟨sum, explained⟩ := tallied.weighs plan rules file found
    refine ⟨_, by rw [RunState.telling_diagnostics, weighed.diagnostics], ?_, explained⟩
    rw [Progress.scanned_outcome, Progress.scanned_changes, Progress.explaining_report, tallied.outcome,
      outcomeOf, outcomeOf, ← sum]
    ac_rfl
  | @changed source found patch w text diff disk weighed =>
    have ⟨sum, explained⟩ := tallied.weighs plan rules file found
    refine ⟨_, by rw [RunState.telling_diagnostics]; exact congrArg (· ++ _) weighed.diagnostics, ?_,
      explained⟩
    have more (change : FileChange) : (!(p.report.changes ++ [change]).isEmpty) = true := by simp
    simp only [Progress.scanned_outcome, Progress.scanned_changes, Progress.changed_outcome,
      Progress.changed_changes, Progress.explaining_report, more]
    rw [outcomeOf_true (!p.report.changes.isEmpty), tallied.outcome, outcomeOf, outcomeOf, ← sum]
    ac_rfl
  | @blocked source found patch w text diff e weighed =>
    have ⟨sum, explained⟩ := tallied.weighs plan rules file found
    refine ⟨_, by rw [RunState.telling_diagnostics, weighed.diagnostics], ?_, ?_⟩
    case refine_1 =>
      have failed (a : Severity) : a.worse .error = .error := by cases a <;> rfl
      simp [outcomeOf_append, failed]
    case refine_2 =>
      intro h
      rw [← List.append_assoc, List.map_append, Severity.worst_append, Severity.rank_worse]
      exact Nat.le_trans (explained h) (Nat.le_max_left _ _)

-- The report of a category, as its diagnostics tell it.
structure Tells (upgrader : Upgrader) (told : List Diagnostic) (c : CategoryReport) : Prop where
  name : c.name = upgrader.info.name
  outcome : c.outcome = outcomeOf c.changelog.isSome told
  changelog : ∀ rules, upgrader = .documents rules → (c.changelog.isSome ↔ c.changes ≠ [])

theorem reviseFiles_tells {c : CategoryReport} (h : reviseFiles plan outside rules files s = .ok c s') :
    ∃ told, s'.diagnostics = s.diagnostics ++ told ∧ Tells (.documents rules) told c := by
  unfold reviseFiles at h
  split at h
  case isFalse =>
    cases h
    exact ⟨[], by simp, rfl, rfl, by simp⟩
  case isTrue =>
    obtain ⟨p, s₁, steps, h⟩ := exists_of_bind h
    -- The name and the line of the changelog are left alone by the steps.
    have kept : ∃ told, s₁.diagnostics = s.diagnostics ++ told ∧ Tallied told p ∧
        p.report.name = rules.info.name ∧ p.report.changelog = none := by
      refine foldlM_kept (P := fun p s₁ => ∃ told, s₁.diagnostics = s.diagnostics ++ told ∧
        Tallied told p ∧ p.report.name = rules.info.name ∧ p.report.changelog = none) steps ?_
        ⟨[], by simp, ⟨rfl, by simp⟩, rfl, rfl⟩
      rintro file _ p p' s₁ s₂ step ⟨told, before, tallied, name, changelog⟩
      have ⟨more, after, tallied⟩ := reviseFile_tallied step tallied
      refine ⟨told ++ more, by rw [after, before, List.append_assoc], tallied, ?_⟩
      cases reviseFile_ends step <;> exact ⟨name, changelog⟩
    obtain ⟨told, diagnostics, tallied, name, changelog⟩ := kept
    have outcome := tallied.outcome
    dsimp only at h
    split at h
    case isTrue none =>
      cases h
      rw [none] at outcome
      refine ⟨told, diagnostics, name, by rw [changelog]; exact outcome, fun _ _ => ?_⟩
      simp [changelog, List.isEmpty_iff.mp none]
    case isFalse some =>
      cases h
      rw [Bool.not_eq_true] at some
      rw [some] at outcome
      exact ⟨told, diagnostics, name, outcome, fun _ _ => by simpa using some⟩

-- A category of packages under way, or one that has come to its end.
structure PackagesTallied (before : List Diagnostic) (c : CategoryReport) (s : RunState σ) : Prop where
  told : ∃ told, s.diagnostics = before ++ told ∧ c.outcome = outcomeOf c.changelog.isSome told

section packages

variable {info : UpgraderInfo} {before : List Diagnostic}

theorem PackagesTallied.warned {c : CategoryReport} {d : Diagnostic} (h : PackagesTallied before c s)
    (told : s'.diagnostics = s.diagnostics ++ [d]) (level : d.level = .warning) :
    PackagesTallied before (c.record .warning) s' := by
  obtain ⟨more, diagnostics, outcome⟩ := h.told
  refine ⟨more ++ [d], by rw [told, diagnostics, List.append_assoc], ?_⟩
  change c.outcome.worse .warning = _
  rw [outcomeOf_append, outcome, List.map_singleton, level]
  rfl

theorem scanProject_tallied {found found' : CategoryReport × List StaleReference}
    (h : scanProject plan info found file s = .ok found' s')
    (tallied : PackagesTallied before found.1 s) (silent : found.1.changelog = none) :
    PackagesTallied before found'.1 s' ∧ found'.1.changelog = none := by
  rw [scanProject_eq] at h
  obtain ⟨_, s₁, checked, h⟩ := exists_of_bind h
  have same := diagnostics_of_checkpoint checked
  simp only [bind_apply, get_apply] at h
  cases read : staleIn plan s₁.world.disk file with
  | error e =>
    rw [read] at h
    cases h
    have reached : PackagesTallied before { found.1 with filesScanned := found.1.filesScanned + 1 } s₁ :=
      ⟨same ▸ tallied.told⟩
    exact ⟨reached.warned rfl rfl, silent⟩
  | ok more =>
    rw [read] at h
    cases h
    exact ⟨⟨same ▸ tallied.told⟩, silent⟩

theorem upgradePackages_tallied {c c' : CategoryReport} {stale : List StaleReference}
    (h : upgradePackages plan outside info c stale s = .ok c' s')
    (tallied : PackagesTallied before c s) (silent : c.changelog = none) :
    PackagesTallied before c' s' := by
  unfold upgradePackages at h
  dsimp only at h
  split at h
  case isTrue =>
    cases h
    obtain ⟨told, diagnostics, outcome⟩ := tallied.told
    refine ⟨told ++ [_], by rw [← List.append_assoc, ← diagnostics], ?_⟩
    rw [outcomeOf_append, outcome]
    exact (Severity.worse_none _).symm
  case isFalse =>
    obtain ⟨_, s₁, checked, h⟩ := exists_of_bind h
    obtain ⟨answer, s₂, asked, h⟩ := exists_of_bind h
    have unsaid := diagnostics_of_checkpoint checked
    have same : s₂.diagnostics = s.diagnostics := by
      cases asked
      exact unsaid
    have reached : PackagesTallied before c s₂ := ⟨same ▸ tallied.told⟩
    split at h
    case h_1 =>
      cases h
      exact reached.warned rfl rfl
    case h_2 =>
      split at h
      case isFalse =>
        cases h
        exact reached.warned rfl rfl
      case isTrue =>
        cases h
        obtain ⟨told, diagnostics, outcome⟩ := reached.told
        rw [silent] at outcome
        refine ⟨told, diagnostics, ?_⟩
        rw [Option.isSome_some, outcomeOf_true false]
        exact congrArg (·.worse .success) outcome

theorem packages_tallied {c : CategoryReport} (h : packages plan outside info files s = .ok c s') :
    PackagesTallied s.diagnostics c s' := by
  have start : PackagesTallied s.diagnostics { name := info.name } s := ⟨[], by simp, rfl⟩
  unfold packages at h
  dsimp only at h
  split at h
  case isFalse =>
    cases h
    exact start
  case isTrue =>
    obtain ⟨found, s₁, scanned, h⟩ := exists_of_bind h
    have ⟨tallied, silent⟩ := foldlM_kept
      (P := fun found s₁ => PackagesTallied s.diagnostics found.1 s₁ ∧ found.1.changelog = none) scanned
      (fun _ _ _ _ _ _ step kept => scanProject_tallied step kept.1 kept.2) ⟨start, rfl⟩
    split at h
    case isTrue =>
      cases h
      exact tallied
    case isFalse => exact upgradePackages_tallied h tallied silent

end packages

-- A category tells what its outcome is.
theorem category_tells {upgrader : Upgrader} {c : CategoryReport}
    (h : category plan outside upgrader files s = .ok c s') :
    ∃ told, s'.diagnostics = s.diagnostics ++ told ∧ Tells upgrader told c := by
  cases upgrader with
  | documents rules => exact reviseFiles_tells h
  | packages info =>
    obtain ⟨told, diagnostics, outcome⟩ := (packages_tallied h).told
    exact ⟨told, diagnostics, (packages_report h).1, outcome, nofun⟩

-- What is told during the turn of a category is told of it.
theorem category_owns {upgrader : Upgrader} {c : CategoryReport}
    (h : category plan outside upgrader files s = .ok c s') :
    ∃ told, s'.diagnostics = s.diagnostics ++ told ∧ ∀ d ∈ told, d.category = upgrader.info.name := by
  have course : HasCourse outside.registry.isSome
      (fun e => ∀ d, e = .told d → d.category = upgrader.info.name)
      fun outside : Collaborators σ => category plan outside upgrader files :=
    .category
      { passed := nofun
        fault := fun _ _ same => nomatch same
        told := fun d own _ same => by cases same; exact own
        asked := fun _ _ _ same => nomatch same
        wrote := fun _ _ _ same => nomatch same
        started := fun _ _ _ _ _ _ same => nomatch same }
  obtain ⟨told, diagnostics, own⟩ := course.told s
  rw [h] at diagnostics
  exact ⟨told, diagnostics, fun d hd => own d hd d rfl⟩

-- The reports of categories and what was told during their turns.
structure TurnsTell (plan : RunPlan) (upgraders : List Upgrader) (cs : List CategoryReport)
    (told : List Diagnostic) : Prop where
  names : cs.map (·.name) = (upgraders.map (·.info.name)).filter (!plan.settings.isDisabled ·)
  tells : ∀ c ∈ cs, ∃ upgrader ∈ upgraders, Tells upgrader (told.filter (·.category == c.name)) c
  owned : ∀ d ∈ told, d.category ∈ cs.map (·.name)

theorem TurnsTell.mem_names {upgraders : List Upgrader} {cs : List CategoryReport} {name : String}
    (h : TurnsTell plan upgraders cs told) (mem : name ∈ cs.map (·.name)) :
    name ∈ upgraders.map (·.info.name) := by
  rw [h.names] at mem
  exact List.mem_of_mem_filter mem

theorem TurnsTell.skip {upgrader : Upgrader} {upgraders : List Upgrader} {cs : List CategoryReport}
    (h : TurnsTell plan upgraders cs told) (disabled : plan.settings.isDisabled upgrader.info.name) :
    TurnsTell plan (upgrader :: upgraders) cs told where
  names := by rw [h.names, List.map_cons, List.filter_cons_of_neg (by simpa using disabled)]
  tells c hc := by
    obtain ⟨u, hu, tells⟩ := h.tells c hc
    exact ⟨u, List.mem_cons_of_mem _ hu, tells⟩
  owned := h.owned

theorem TurnsTell.cons {upgrader : Upgrader} {upgraders : List Upgrader} {c : CategoryReport}
    {cs : List CategoryReport} {first : List Diagnostic} (h : TurnsTell plan upgraders cs told)
    (enabled : plan.settings.isDisabled upgrader.info.name = false)
    (fresh : upgrader.info.name ∉ upgraders.map (·.info.name)) (tells : Tells upgrader first c)
    (own : ∀ d ∈ first, d.category = upgrader.info.name) :
    TurnsTell plan (upgrader :: upgraders) (c :: cs) (first ++ told) where
  names := by
    rw [List.map_cons, List.map_cons, List.filter_cons_of_pos (by simp [enabled]), tells.name, h.names]
  tells c' hc' := by
    rcases List.mem_cons.mp hc' with rfl | later
    case inl =>
      -- What was told later is told of other categories.
      have mine : first.filter (·.category == c'.name) = first :=
        List.filter_eq_self.mpr fun d hd => by simp [own d hd, tells.name]
      have others : told.filter (·.category == c'.name) = [] :=
        List.filter_eq_nil_iff.mpr fun d hd same => fresh (by
          rw [beq_iff_eq, tells.name] at same
          exact same ▸ h.mem_names (h.owned d hd))
      rw [List.filter_append, mine, others, List.append_nil]
      exact ⟨upgrader, List.mem_cons_self, tells⟩
    case inr =>
      have others : first.filter (·.category == c'.name) = [] :=
        List.filter_eq_nil_iff.mpr fun d hd same => fresh (by
          rw [beq_iff_eq, own d hd] at same
          exact same ▸ h.mem_names (List.mem_map_of_mem later))
      rw [List.filter_append, others, List.nil_append]
      obtain ⟨u, hu, tells⟩ := h.tells c' later
      exact ⟨u, List.mem_cons_of_mem _ hu, tells⟩
  owned d hd := by
    rw [List.map_cons, List.mem_cons, tells.name]
    exact (List.mem_append.mp hd).imp (own d) (h.owned d)

theorem turns_tell {upgraders : List Upgrader} {r r' : RunReport}
    (distinct : (upgraders.map (·.info.name)).Nodup)
    (h : upgraders.foldlM (turn plan outside) r s = .ok r' s') :
    ∃ cs told, r' = cs.foldl RunReport.finish r ∧ s'.diagnostics = s.diagnostics ++ told ∧
      TurnsTell plan upgraders cs told := by
  induction upgraders generalizing r s with
  | nil =>
    cases h
    exact ⟨[], [], rfl, by simp, rfl, by simp, by simp⟩
  | cons upgrader upgraders ih =>
    rw [List.foldlM_cons] at h
    obtain ⟨r₁, s₁, first, rest⟩ := exists_of_bind h
    have ⟨fresh, distinct⟩ := List.nodup_cons.mp distinct
    obtain ⟨cs, told, hr, diagnostics, tell⟩ := ih distinct rest
    rcases turn_cases first with ⟨disabled, rfl, rfl⟩ | ⟨enabled, _, c, s₀, _, checked, made, rfl⟩
    case inl => exact ⟨cs, told, hr, diagnostics, tell.skip disabled⟩
    case inr =>
      obtain ⟨more, before, tells⟩ := category_tells made
      obtain ⟨_, same, own⟩ := category_owns made
      cases List.append_cancel_left (before.symm.trans same)
      refine ⟨c :: cs, more ++ told, hr, ?_, tell.cons enabled fresh tells own⟩
      rw [diagnostics, before, diagnostics_of_checkpoint checked, List.append_assoc]

theorem foldl_finish_categories (cs : List CategoryReport) (r : RunReport) :
    (cs.foldl RunReport.finish r).categories = r.categories ++ cs := by
  induction cs generalizing r with
  | nil => simp
  | cons c cs ih => rw [List.foldl_cons, ih, RunReport.finish_categories, List.append_assoc]; rfl

theorem foldl_finish_changelog (cs : List CategoryReport) (r : RunReport) :
    (cs.foldl RunReport.finish r).changelog = r.changelog ++ cs.filterMap (·.changelog) := by
  induction cs generalizing r with
  | nil => simp
  | cons c cs ih =>
    rw [List.foldl_cons, ih, RunReport.finish_changelog, List.append_assoc, List.filterMap_cons]
    cases c.changelog <;> rfl

theorem foldl_finish_outcome (cs : List CategoryReport) (r : RunReport) :
    (cs.foldl RunReport.finish r).outcome = r.outcome.worse (Severity.worst (cs.map (·.outcome))) := by
  induction cs generalizing r with
  | nil => simp
  | cons c cs ih =>
    rw [List.foldl_cons, ih, RunReport.finish_outcome, List.map_cons, Severity.worst_cons]
    ac_rfl

-- A report is refused where an error was told, for the categories that it was told of.
theorem check_eq {report : RunReport} {upgraders : List Upgrader}
    (tell : TurnsTell plan upgraders report.categories report.diagnostics) :
    report.check = if ∃ d ∈ report.diagnostics, d.level = .error
      then .error (.upgradeFailed report.troubled) else .ok () := by
  have failed : report.failedCategories = report.troubled := by
    rw [RunReport.failedCategories, RunReport.troubled, List.filter_map]
    refine congrArg _ (List.filter_congr fun c hc => ?_)
    obtain ⟨u, _, tells⟩ := tell.tells c hc
    have outcome : c.outcome = .error ↔ Severity.worst (report.levelsOf c.name) = .error := by
      rw [tells.outcome, outcomeOf, RunReport.levelsOf]
      generalize Severity.worst _ = level
      cases c.changelog.isSome <;> cases level <;> decide
    rw [Severity.worst_eq_error_iff] at outcome
    rw [Function.comp_apply, Bool.eq_iff_iff]
    simpa using outcome
  have troubled : report.troubled ≠ [] ↔ ∃ d ∈ report.diagnostics, d.level = .error := by
    rw [RunReport.troubled, Ne, List.filter_eq_nil_iff]
    simp only [decide_eq_true_eq, not_forall, not_not]
    simp only [RunReport.levelsOf, List.mem_map, List.mem_filter, beq_iff_eq]
    constructor
    case mp =>
      rintro ⟨_, _, d, ⟨hd, _⟩, level⟩
      exact ⟨d, hd, level⟩
    case mpr =>
      rintro ⟨d, hd, level⟩
      have ⟨c, hc, name⟩ := List.mem_map.mp (tell.owned d hd)
      exact ⟨d.category, ⟨c, hc, name⟩, d, ⟨hd, rfl⟩, level⟩
  rw [RunReport.check, failed]
  split
  case h_1 none => rw [if_neg (troubled.not.mp (not_not.mpr none))]
  case h_2 some => rw [if_pos (troubled.mp some)]

-- A run that comes to its end reports what its turns have told.
theorem execute_tells {world world' : World σ} {report : RunReport}
    (h : execute plan outside Upgrader.all world = (.ok report, world')) :
    TurnsTell plan Upgrader.all report.categories report.diagnostics ∧
    report.outcome = Severity.worst (report.categories.map (·.outcome)) ∧
    report.changelog = report.categories.filterMap (·.changelog) := by
  rw [execute_all, ← Upgrader.all_eq] at h
  split at h <;> cases h
  case h_1 r s' turns =>
  have distinct : (Upgrader.all.map (·.info.name)).Nodup := by
    rw [Upgrader.all_eq]
    decide
  obtain ⟨cs, told, rfl, diagnostics, tell⟩ := turns_tell distinct turns
  rw [List.nil_append] at diagnostics
  dsimp only
  rw [foldl_finish_categories, foldl_finish_outcome, foldl_finish_changelog, diagnostics]
  exact ⟨tell, Severity.none_worse _, rfl⟩

-- The outcomes of a run that comes to its end are what was told of each category, and of the whole; its
-- changelog has the lines of the categories, in their order. The report is refused where an error was
-- told, for the categories that it was told of.
theorem execute_outcomes {world world' : World σ} {report : RunReport}
    (h : execute plan outside Upgrader.all world = (.ok report, world')) :
    report.categories.map (·.name) = Upgrader.names.filter (!plan.settings.isDisabled ·) ∧
    (∀ c ∈ report.categories, c.outcome = (if c.changelog.isSome then Severity.success else .none).worse
      (Severity.worst (report.levelsOf c.name))) ∧
    (∀ c ∈ report.categories, c.name ∈ Upgrader.documentRules.map (·.info.name) →
      (c.changelog.isSome ↔ c.changes ≠ [])) ∧
    report.outcome = Severity.worst (report.categories.map (·.outcome)) ∧
    report.changelog = report.categories.filterMap (·.changelog) ∧
    report.check = if ∃ d ∈ report.diagnostics, d.level = .error
      then .error (.upgradeFailed report.troubled) else .ok () := by
  have ⟨tell, outcome, changelog⟩ := execute_tells h
  refine ⟨tell.names, ?outcomes, ?lines, outcome, changelog, check_eq tell⟩
  case outcomes =>
    intro c hc
    obtain ⟨_, _, tells⟩ := tell.tells c hc
    exact tells.outcome
  case lines =>
    intro c hc document
    obtain ⟨u, hu, tells⟩ := tell.tells c hc
    rw [Upgrader.all_eq] at hu
    rcases List.mem_append.mp hu with listed | last
    case inl =>
      obtain ⟨rules, _, rfl⟩ := List.mem_map.mp listed
      exact tells.changelog rules rfl
    case inr =>
      rw [tells.name, List.mem_singleton.mp last] at document
      exact absurd document (by decide)

-- Two pinned SDKs, one of which may not be written.
def protectedWorld : World Unit :=
  { pairWorld pinnedSdk with disk :=
    { (pairWorld pinnedSdk).disk with unwritable := [("global.json", .create, "Permission denied")] } }

theorem execute_outcomes_protected :
    ∃ report world,
      execute pairPlan noCollaborators Upgrader.all protectedWorld = (.ok report, world) ∧
      starts report = [[[19]], [], [], [], [], [], [], []] ∧
      report.outcome = .error ∧ report.check = .error (.upgradeFailed ["global-json"]) := by
  have evaluated : (execute pairPlan noCollaborators Upgrader.all protectedWorld).1.map
      (fun report => (starts report, report.diagnostics.map (·.level), report.troubled, report.outcome))
        = .ok ([[[19]], [], [], [], [], [], [], []], [.error], ["global-json"], .error) := by
    rw [execute_all]
    decide +kernel
  cases ran : execute pairPlan noCollaborators Upgrader.all protectedWorld with
  | mk ended world =>
    rw [ran] at evaluated
    cases ended with
    | error stop => cases evaluated
    | ok report =>
      obtain ⟨edited, rest⟩ := Prod.mk.inj (Except.ok.inj evaluated)
      obtain ⟨levels, rest⟩ := Prod.mk.inj rest
      obtain ⟨troubled, outcome⟩ := Prod.mk.inj rest
      obtain ⟨_, _, _, _, _, check⟩ := execute_outcomes ran
      have told : ∃ d ∈ report.diagnostics, d.level = .error :=
        List.mem_map.mp (levels ▸ List.mem_cons_self)
      rw [if_pos told, troubled] at check
      exact ⟨report, world, rfl, edited, outcome, check⟩

end Run
end Repin
