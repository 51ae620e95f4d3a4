import Repin.Proofs.Run.DryRun
import Repin.Proofs.Run.Ending
/-!
# Files do not interfere

While the registry always answers the same, what a run does to a file follows from the file alone, also
where the run fails to write it. So runs over disks that differ in one file do the same to all others.
Main statement: `execute_undisturbed`.
-/
namespace Repin

variable {σ : Type} {answers : Option (String → String → DigestAnswer)}
variable {outside : Collaborators σ} {s s' t t' : RunState σ}

namespace Disk

variable {d d' : Disk} {path hidden other : String} {entry : Entry}

-- Whether two disks have the same at a path, and let the same be done with it.
structure AgreeAt (path : String) (d d' : Disk) : Prop where
  entry : d'.find? path = d.find? path
  unreadable : d'.unreadable.lookup path = d.unreadable.lookup path
  unwritable : d'.unwritable.lookup path = d.unwritable.lookup path

-- Disks that differ at one path at most.
def AgreeBesides (hidden : String) (d d' : Disk) : Prop :=
  ∀ path, path ≠ hidden → AgreeAt path d d'

theorem AgreeAt.insert (h : AgreeAt path d d') :
    AgreeAt path (d.insert other entry) (d'.insert other entry) where
  entry := by
    by_cases ne : path = other
    case pos => rw [ne, find?_insert_self, find?_insert_self]
    case neg => rw [find?_insert_of_ne _ _ ne, find?_insert_of_ne _ _ ne, h.entry]
  unreadable := h.unreadable
  unwritable := h.unwritable

theorem AgreeAt.insert_left (h : AgreeAt path d d') (ne : path ≠ other) :
    AgreeAt path (d.insert other entry) d' where
  entry := by rw [find?_insert_of_ne _ _ ne, h.entry]
  unreadable := h.unreadable
  unwritable := h.unwritable

theorem AgreeAt.insert_right (h : AgreeAt path d d') (ne : path ≠ other) :
    AgreeAt path d (d'.insert other entry) where
  entry := by rw [find?_insert_of_ne _ _ ne, h.entry]
  unreadable := h.unreadable
  unwritable := h.unwritable

-- A file is read alike where disks agree. Why it cannot be read may be another matter.
theorem AgreeAt.read {readers : Readers} (h : AgreeAt path d d') (shown : String) :
    (SourceDocument.read readers d' path shown).toOption
      = (SourceDocument.read readers d path shown).toOption := by
  unfold SourceDocument.read Disk.read
  rw [h.entry, h.unreadable]
  cases d.unreadable.lookup path with
  | some cause => rfl
  | none =>
    cases d.find? path with
    | none => rfl
    | some entry => cases entry <;> rfl

end Disk

namespace Run

variable {plan : RunPlan} {rules : DocumentRules} {d d' : Disk} {file hidden : String}
variable {files : List String} {p p' q q' : Progress}

theorem examine_congr (h : Disk.AgreeAt (plan.workspace.pathOf file) d d') :
    (examine plan rules d' file).toOption = (examine plan rules d file).toOption := by
  rw [examine, examine, toOption_bind, toOption_bind, h.read]

-- What the step of a file records, and what it puts in the place of the file unless the run is a dry one.
def upshot (plan : RunPlan) (answers : Option (String → String → DigestAnswer)) (rules : DocumentRules)
    (d : Disk) (file : String) : Option (FileChange × Option Entry) := do
  let (source, found) ← (examine plan rules d file).toOption
  let candidates ← found.toOption
  let verdicts ← (candidates.mapM (Revision.fixedVerdict rules plan.channel plan.policy answers
    source.metadata.newline)).toOption
  let patch ← (Revision.patchOf verdicts).toOption
  if patch.hasEdits then
    let text ← (patch.apply source.text).toOption
    let diff ← (patch.diff file source.text).toOption
    let change : FileChange :=
      { path := file, edits := patch.materialize file source.text, written := !plan.dryRun, diff }
    if plan.dryRun then
      return (change, none)
    else if (d.unwritable.lookup (plan.workspace.pathOf file)).isNone then
      return (change, some (.file (source.metadata.encode text)))
    else
      none
  else
    none

-- A disk after a step with an upshot.
def settled (d : Disk) (path : String) : Option (FileChange × Option Entry) → Disk
  | some (_, some entry) => d.insert path entry
  | some (_, none) | none => d

theorem upshot_congr (h : Disk.AgreeAt (plan.workspace.pathOf file) d d') :
    upshot plan answers rules d' file = upshot plan answers rules d file := by
  rw [upshot, upshot, examine_congr h, h.unwritable]

theorem path_of_upshot {change : FileChange} {entry : Option Entry}
    (h : upshot plan answers rules d file = some (change, entry)) : change.path = file := by
  simp only [upshot, Option.bind_eq_bind, Option.bind_eq_some_iff, Option.pure_def] at h
  obtain ⟨_, _, _, _, _, _, _, _, h⟩ := h
  split at h
  case isFalse => cases h
  case isTrue =>
    simp only [Option.bind_eq_some_iff] at h
    obtain ⟨_, _, _, _, h⟩ := h
    split at h
    case isTrue =>
      cases h
      rfl
    case isFalse =>
      split at h <;> cases h
      rfl

-- A part of a category with an upshot.
structure Concludes (plan : RunPlan) (answers : Option (String → String → DigestAnswer)) (file : String)
    (upshot : Option (FileChange × Option Entry)) (p : Progress) (s : RunState σ) (p' : Progress)
    (s' : RunState σ) : Prop where
  name : p'.report.name = p.report.name
  changes : p'.report.changes = p.report.changes ++ (upshot.map Prod.fst).toList
  disk : s'.world.disk = settled s.world.disk (plan.workspace.pathOf file) upshot
  recalls : s'.Recalls answers

theorem reviseFile_concludes (ha : outside.AnswersBy answers) (recalls : s.Recalls answers)
    (h : reviseFile plan outside rules p file s = .ok p' s') :
    Concludes plan answers file (upshot plan answers rules s.world.disk file) p s p' s' := by
  cases reviseFile_ends h with
  | unread checked unread =>
    have ⟨_, untouched⟩ := (Gives.checkpoint (σ := σ)).result recalls checked
    have none : upshot plan answers rules s.world.disk file = none := by rw [upshot, unread]; rfl
    rw [none]
    exact ⟨rfl, by simp, untouched.disk, untouched.recalls⟩
  | @current source found patch w weighed current =>
    have ⟨verdicts, untouched⟩ := weighed.gives ha recalls
    have none : upshot plan answers rules s.world.disk file = none := by
      rw [upshot, weighed.examined]
      simp [toOption_ok, -List.mapM_map, verdicts, weighed.patched, current]
    rw [none]
    exact ⟨rfl, by simp, untouched.disk, untouched.recalls⟩
  | @changed source found patch w text diff disk weighed edits applied told put =>
    have ⟨verdicts, untouched⟩ := weighed.gives ha recalls
    rw [untouched.disk] at put
    by_cases dry : plan.dryRun
    case pos =>
      rw [putBack, if_pos dry] at put
      cases put
      have some : upshot plan answers rules s.world.disk file
          = some (⟨file, patch.materialize file source.text, !plan.dryRun, diff⟩, none) := by
        rw [upshot, weighed.examined]
        simp [toOption_ok, -List.mapM_map, verdicts, weighed.patched, edits, applied, told, dry]
      rw [some]
      exact ⟨rfl, rfl, rfl, untouched.recalls⟩
    case neg =>
      rw [putBack, if_neg dry, SourceDocument.writeBack_of_read (examine_eq_ok_iff.mp weighed.examined).1] at put
      split at put <;> cases put
      case h_2 permitted =>
        have some : upshot plan answers rules s.world.disk file
            = some (⟨file, patch.materialize file source.text, !plan.dryRun, diff⟩,
              some (.file (source.metadata.encode text))) := by
          rw [upshot, weighed.examined]
          simp [toOption_ok, -List.mapM_map, verdicts, weighed.patched, edits, applied, told, dry, permitted]
        rw [some]
        exact ⟨rfl, rfl, rfl, untouched.recalls⟩
  | @blocked source found patch w text diff e weighed edits applied told put =>
    have ⟨_, untouched⟩ := weighed.gives ha recalls
    rw [untouched.disk] at put
    by_cases dry : plan.dryRun
    case pos =>
      rw [putBack, if_pos dry] at put
      cases put
    case neg =>
      rw [putBack, if_neg dry, SourceDocument.writeBack_of_read (examine_eq_ok_iff.mp weighed.examined).1] at put
      split at put <;> cases put
      case h_1 refused =>
        have none : upshot plan answers rules s.world.disk file = none := by
          rw [upshot, weighed.examined]
          simp [toOption_ok, dry, refused]
        rw [none]
        exact ⟨rfl, by simp, untouched.disk, untouched.recalls⟩

-- Two runs whose disks differ in one file at most, beside each other.
structure Apart (plan : RunPlan) (answers : Option (String → String → DigestAnswer)) (hidden : String)
    (s t : RunState σ) : Prop where
  left : s.Recalls answers
  right : t.Recalls answers
  disks : s.world.disk.AgreeBesides (plan.workspace.pathOf hidden) t.world.disk

theorem Apart.checkpoint (apart : Apart plan answers hidden s t)
    (hs : RunM.checkpoint s = .ok () s') (ht : RunM.checkpoint t = .ok () t') :
    Apart plan answers hidden s' t' := by
  have ⟨_, first⟩ := (Gives.checkpoint (σ := σ)).result apart.left hs
  have ⟨_, second⟩ := (Gives.checkpoint (σ := σ)).result apart.right ht
  exact ⟨first.recalls, second.recalls, first.disk ▸ second.disk ▸ apart.disks⟩

-- Where a step does not write, it leaves disks as alike as they were.
theorem agreeAt_settled_of_ne {path target : String} {u u' : Option (FileChange × Option Entry)}
    (h : d.AgreeAt path d') (ne : path ≠ target) :
    (settled d target u).AgreeAt path (settled d' target u') := by
  have first : (settled d target u).AgreeAt path d' := by
    rcases u with _ | ⟨_, _ | entry⟩
    · exact h
    · exact h
    · exact h.insert_left ne
  rcases u' with _ | ⟨_, _ | entry⟩
  · exact first
  · exact first
  · exact first.insert_right ne

theorem agreeAt_settled {path target : String} {u : Option (FileChange × Option Entry)}
    (h : d.AgreeAt path d') : (settled d target u).AgreeAt path (settled d' target u) := by
  rcases u with _ | ⟨_, _ | entry⟩
  · exact h
  · exact h
  · exact h.insert

-- Two reports of a category that tell the same changes in all files but one.
structure SameBesides (hidden : String) (c c' : CategoryReport) : Prop where
  name : c.name = c'.name
  changes : c.changesBesides [hidden] = c'.changesBesides [hidden]

theorem reviseFile_apart (ha : outside.AnswersBy answers) (apart : Apart plan answers hidden s t)
    (same : SameBesides hidden p.report q.report)
    (hs : reviseFile plan outside rules p file s = .ok p' s')
    (ht : reviseFile plan outside rules q file t = .ok q' t') :
    SameBesides hidden p'.report q'.report ∧ Apart plan answers hidden s' t' := by
  have left := reviseFile_concludes ha apart.left hs
  have right := reviseFile_concludes ha apart.right ht
  by_cases other : file = hidden
  case pos =>
    have dropped (d : Disk) : (((upshot plan answers rules d file).map Prod.fst).toList.filter
        fun c => c.path ∉ [hidden]) = [] := by
      refine List.filter_eq_nil_iff.mpr fun change made => ?_
      obtain ⟨⟨_, entry⟩, reached, rfl⟩ := Option.map_eq_some_iff.mp (Option.mem_toList.mp made)
      simp [path_of_upshot reached, other]
    refine ⟨⟨?_, ?_⟩, left.recalls, right.recalls, ?_⟩
    case refine_1 => rw [left.name, right.name, same.name]
    case refine_2 =>
      have before := same.changes
      unfold CategoryReport.changesBesides at before ⊢
      rw [left.changes, right.changes, List.filter_append, List.filter_append, dropped, dropped, before]
    case refine_3 =>
      intro path ne
      rw [left.disk, right.disk, other]
      exact agreeAt_settled_of_ne (apart.disks path ne) ne
  case neg =>
    have agree := apart.disks _ (pathOf_inj.not.mpr other)
    rw [upshot_congr agree] at right
    refine ⟨⟨?_, ?_⟩, left.recalls, right.recalls, ?_⟩
    case refine_1 => rw [left.name, right.name, same.name]
    case refine_2 =>
      have before := same.changes
      unfold CategoryReport.changesBesides at before ⊢
      rw [left.changes, right.changes, List.filter_append, List.filter_append, before]
    case refine_3 =>
      intro path ne
      rw [left.disk, right.disk]
      exact agreeAt_settled (apart.disks path ne)

theorem foldlM_reviseFile_apart (ha : outside.AnswersBy answers) (apart : Apart plan answers hidden s t)
    (same : SameBesides hidden p.report q.report)
    (hs : files.foldlM (reviseFile plan outside rules) p s = .ok p' s')
    (ht : files.foldlM (reviseFile plan outside rules) q t = .ok q' t') :
    SameBesides hidden p'.report q'.report ∧ Apart plan answers hidden s' t' := by
  induction files generalizing p q s t with
  | nil =>
    cases hs
    cases ht
    exact ⟨same, apart⟩
  | cons file files ih =>
    rw [List.foldlM_cons] at hs ht
    obtain ⟨p₁, s₁, first, hs⟩ := exists_of_bind hs
    obtain ⟨q₁, t₁, second, ht⟩ := exists_of_bind ht
    have ⟨same, apart⟩ := reviseFile_apart ha apart same first second
    exact ih apart same hs ht

theorem reviseFiles_apart {c c' : CategoryReport} (ha : outside.AnswersBy answers)
    (apart : Apart plan answers hidden s t)
    (hs : reviseFiles plan outside rules files s = .ok c s')
    (ht : reviseFiles plan outside rules files t = .ok c' t') :
    SameBesides hidden c c' ∧ Apart plan answers hidden s' t' := by
  unfold reviseFiles at hs ht
  split at hs
  case isFalse none =>
    rw [if_neg none] at ht
    cases hs
    cases ht
    exact ⟨⟨rfl, rfl⟩, apart⟩
  case isTrue applies =>
    rw [if_pos applies] at ht
    obtain ⟨p, s₁, first, hs⟩ := exists_of_bind hs
    obtain ⟨q, t₁, second, ht⟩ := exists_of_bind ht
    have ⟨same, apart⟩ := foldlM_reviseFile_apart ha apart ⟨rfl, rfl⟩ first second
    dsimp only at hs ht
    -- The line of the changelog may be missing in one of the runs, which is no matter here.
    split at hs <;> cases hs <;> split at ht <;> cases ht <;> exact ⟨⟨same.name, same.changes⟩, apart⟩

theorem category_apart {upgrader : Upgrader} {c c' : CategoryReport} (ha : outside.AnswersBy answers)
    (off : ∀ info, upgrader = .packages info → plan.settings.packages.enabled = false)
    (apart : Apart plan answers hidden s t)
    (hs : category plan outside upgrader files s = .ok c s')
    (ht : category plan outside upgrader files t = .ok c' t') :
    SameBesides hidden c c' ∧ Apart plan answers hidden s' t' := by
  cases upgrader with
  | documents rules => exact reviseFiles_apart ha apart hs ht
  | packages info =>
    have off := off info rfl
    simp only [category, packages, off, Bool.false_eq_true, if_false] at hs ht
    cases hs
    cases ht
    exact ⟨⟨rfl, rfl⟩, apart⟩

theorem turns_apart {upgraders : List Upgrader} {r r' u u' : RunReport} (ha : outside.AnswersBy answers)
    (off : ∀ info, .packages info ∈ upgraders →
      plan.settings.packages.enabled = false ∨ plan.settings.isDisabled info.name)
    (apart : Apart plan answers hidden s t)
    (hs : upgraders.foldlM (turn plan outside) r s = .ok r' s')
    (ht : upgraders.foldlM (turn plan outside) u t = .ok u' t') :
    ∃ cs cs', r'.categories = r.categories ++ cs ∧ u'.categories = u.categories ++ cs' ∧
      List.Forall₂ (SameBesides hidden) cs cs' ∧ Apart plan answers hidden s' t' := by
  induction upgraders generalizing r u s t with
  | nil =>
    cases hs
    cases ht
    exact ⟨[], [], by simp, by simp, .nil, apart⟩
  | cons upgrader upgraders ih =>
    rw [List.foldlM_cons] at hs ht
    obtain ⟨r₁, s₁, first, lastS⟩ := exists_of_bind hs
    obtain ⟨u₁, t₁, second, lastT⟩ := exists_of_bind ht
    have later info (mem : .packages info ∈ upgraders) := off info (List.mem_cons_of_mem _ mem)
    rcases turns_cases first second
      with ⟨rfl, rfl, rfl, rfl⟩ | ⟨enabled, _, c, c', _, _, hc, hc', made, made', rfl, rfl⟩
    case inl => exact ih later apart lastS lastT
    case inr =>
      have off' : ∀ info, upgrader = .packages info → plan.settings.packages.enabled = false := by
        rintro info rfl
        refine (off info List.mem_cons_self).resolve_right fun disabled => ?_
        cases enabled.symm.trans disabled
      have ⟨same, apart⟩ := category_apart ha off' (apart.checkpoint hc hc') made made'
      have ⟨cs, cs', hr, hu, rest, apart⟩ := ih later apart lastS lastT
      rw [RunReport.finish] at hr hu
      refine ⟨c :: cs, c' :: cs', ?_, ?_, .cons same rest, apart⟩
      · rw [hr, List.append_assoc, List.singleton_append]
      · rw [hu, List.append_assoc, List.singleton_append]

-- Events of a run that starts no tool and ends early by a fault, if at all.
def Event.IsUnaided : Event → Prop
  | passed | cancelled | told _ | asked _ _ | wrote _ => True
  | stopped why => ∃ f, why = .fault f
  | started _ => False

theorem packages_of_mem_all {info : UpgraderInfo} (h : .packages info ∈ Upgrader.all) :
    info = Upgrader.packageVersions := by
  rw [Upgrader.all_eq] at h
  simpa using h

theorem exists_readPatterns_of_plain (readers : Readers) {patterns : List String}
    (plain : ∀ pattern ∈ patterns, isPlainPattern pattern) :
    ∃ read, Workspace.readPatterns readers patterns = .ok read := by
  refine exists_mapM_eq_ok fun pattern hp => ?_
  have ⟨selects, accepted⟩ := readers.glob_plain (plain pattern hp)
  exact ⟨selects, mapError_eq_ok.mpr accepted⟩

-- The patterns of the upgraders are plain, so any reader of patterns accepts them.
theorem exists_readPatterns_of_mem_all (readers : Readers) {upgrader : Upgrader}
    (h : upgrader ∈ Upgrader.all) :
    ∃ read, Workspace.readPatterns readers upgrader.info.patterns = .ok read := by
  have plain : ∀ u ∈ Upgrader.all, ∀ pattern ∈ u.info.patterns, isPlainPattern pattern := by
    rw [Upgrader.all_eq]
    decide +kernel
  exact exists_readPatterns_of_plain readers (plain upgrader h)

-- A run comes to its end if nobody cancels it, no tool is needed, and no fault is met.
theorem exists_report {world : World σ} (ha : outside.AnswersBy answers)
    (off : plan.settings.packages.enabled = false ∨
      plan.settings.isDisabled Upgrader.packageVersions.name)
    (never : world.cancellation = .never)
    (sound : ∀ f, (execute plan outside Upgrader.all world).1 ≠ .error (.fault f)) :
    ∃ report s, all plan outside Upgrader.all { world } = .ok report s := by
  have course : HasCourse outside.registry.isSome Event.IsUnaided fun outside : Collaborators σ =>
      all plan outside Upgrader.all := by
    refine .all ⟨fun u hu enabled => ?_, fun u hu e malformed => ?_⟩
    case refine_1 =>
      exact {
        passed := trivial
        fault := fun f => ⟨f, rfl⟩
        told := fun _ _ => trivial
        asked := fun _ _ => trivial
        wrote := fun _ _ => trivial
        started := by
          rintro info rfl _ switched
          rw [packages_of_mem_all hu] at enabled
          rcases off with off | off
          · cases off.symm.trans switched
          · cases enabled.symm.trans off }
    case refine_2 =>
      obtain ⟨_, accepted⟩ := exists_readPatterns_of_mem_all plan.readers hu
      rw [malformed] at accepted
      cases accepted
  cases ended : all plan outside Upgrader.all { world } with
  | ok report s => exact ⟨report, s, rfl⟩
  | error stop s =>
    have answered image tag (w : World σ) (never : w.cancellation = .never) :
        (answerOf outside image tag w).2.cancellation = .never := by
      rw [answerOf, ha]
      cases answers <;> exact never
    obtain ⟨f, rfl⟩ := course.stopped_of_never answered (fun _ => False.elim) never ended
    refine absurd ?_ (sound f)
    rw [execute, EStateM.run, ended]

-- Runs over disks that differ in one file at most, which nobody cancels, that need no tool and meet no
-- fault: both come to their end, each category tells the same changes in all other files, and these have
-- the same bytes afterwards.
theorem execute_undisturbed {world world' : World σ} (ha : outside.AnswersBy answers)
    (off : plan.settings.packages.enabled = false ∨
      plan.settings.isDisabled Upgrader.packageVersions.name)
    (never : world.cancellation = .never) (never' : world'.cancellation = .never)
    (agree : world.disk.AgreeBesides (plan.workspace.pathOf hidden) world'.disk)
    (sound : ∀ f, (execute plan outside Upgrader.all world).1 ≠ .error (.fault f))
    (sound' : ∀ f, (execute plan outside Upgrader.all world').1 ≠ .error (.fault f)) :
    ∃ report report' w w',
      execute plan outside Upgrader.all world = (.ok report, w) ∧
      execute plan outside Upgrader.all world' = (.ok report', w') ∧
      List.Forall₂ (SameBesides hidden) report.categories report'.categories ∧
      ∀ path, path ≠ plan.workspace.pathOf hidden → w'.disk.find? path = w.disk.find? path := by
  obtain ⟨report, s, made⟩ := exists_report ha off never sound
  obtain ⟨report', s', made'⟩ := exists_report ha off never' sound'
  refine ⟨report, report', s.world, s'.world, ?_, ?_, ?_⟩
  case refine_1 => rw [execute, EStateM.run, made]
  case refine_2 => rw [execute, EStateM.run, made']
  case refine_3 =>
    obtain ⟨r, s₁, turns, told⟩ := exists_of_bind made
    obtain ⟨r', s₁', turns', told'⟩ := exists_of_bind made'
    cases told
    cases told'
    rw [Upgrader.inOrder_all, ← Upgrader.all_eq] at turns turns'
    have forgetful (w : World σ) : RunState.Recalls answers { world := w } := by
      intro _ _ _ _ _ found
      cases found
    have start : Apart plan answers hidden { world } { world := world' } :=
      ⟨forgetful _, forgetful _, agree⟩
    have off' : ∀ info, .packages info ∈ Upgrader.all →
        plan.settings.packages.enabled = false ∨ plan.settings.isDisabled info.name := by
      intro info mem
      rwa [packages_of_mem_all mem]
    obtain ⟨cs, cs', hr, hr', same, apart⟩ := turns_apart ha off' start turns turns'
    rw [List.nil_append] at hr hr'
    rw [← hr, ← hr'] at same
    exact ⟨same, fun path ne => (apart.disks path ne).entry⟩

theorem starts_pair : (execute pairPlan noCollaborators Upgrader.all (pairWorld pinnedSdk)).1.map starts
      = .ok [[[19], [19]], [], [], [], [], [], [], []] ∧
    (execute pairPlan noCollaborators Upgrader.all (pairWorld "\x7b")).1.map starts
      = .ok [[[19]], [], [], [], [], [], [], []] := by
  rw [execute_all, execute_all]
  decide +kernel

-- What is wrong with one file is no matter to the other.
theorem execute_undisturbed_malformed :
    ∃ report report' w w',
      execute pairPlan noCollaborators Upgrader.all (pairWorld pinnedSdk) = (.ok report, w) ∧
      execute pairPlan noCollaborators Upgrader.all (pairWorld "\x7b") = (.ok report', w') ∧
      starts report ≠ starts report' ∧
      List.Forall₂ (SameBesides "global.json") report.categories report'.categories ∧
      w'.disk.find? "lib/global.json" = w.disk.find? "lib/global.json" := by
  obtain ⟨edits, edits'⟩ := starts_pair
  have silent : noCollaborators.AnswersBy none := rfl
  have agree : (pairWorld pinnedSdk).disk.AgreeBesides (pairPlan.workspace.pathOf "global.json")
      (pairWorld "\x7b").disk := by
    intro path ne
    have ne : path ≠ "global.json" := ne
    refine ⟨?_, rfl, rfl⟩
    simp [pairWorld, Disk.find?, List.lookup_cons, beq_false_of_ne ne]
  obtain ⟨report, report', w, w', made, made', same, others⟩ := execute_undisturbed silent
    (.inr rfl) rfl rfl agree (fun f h => by rw [h] at edits; cases edits)
    (fun f h => by rw [h] at edits'; cases edits')
  refine ⟨report, report', w, w', made, made', ?_, same, others "lib/global.json" (by decide)⟩
  rw [made] at edits
  rw [made'] at edits'
  rw [Except.ok.inj edits, Except.ok.inj edits']
  decide

end Run
end Repin
