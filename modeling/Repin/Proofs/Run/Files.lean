import Repin.Proofs.Run.Step
/-!
# What the run of a category does to files

A category that comes to its end accounts for all that it wrote. Main statement:
`reviseFiles_accounted`.
-/
namespace Repin.Run

variable {σ : Type} {plan : RunPlan} {outside : Collaborators σ} {rules : DocumentRules}
variable {file : String} {files : List String} {p p' : Progress} {s s' s'' : RunState σ}
variable {changes changes' : List FileChange}

-- Files on two disks differ as recorded changes tell: a file with a change was read as a text and
-- written as the text after its edits, and the others are as they were. That holds as far as the
-- registry leaves the files alone.
structure Accounted (plan : RunPlan) (outside : Collaborators σ) (s s' : RunState σ)
    (changes : List FileChange) : Prop where
  changed : ∀ c ∈ changes, outside.Spares (plan.workspace.pathOf c.path) →
    ∃ bytes old metadata new,
      s.world.disk.find? (plan.workspace.pathOf c.path) = some (.file bytes) ∧
      FileMetadata.decode? bytes = some (old, metadata) ∧
      Replay 0 old.toList c.edits new.toList ∧
      s'.world.disk.find? (plan.workspace.pathOf c.path) = some (.file (metadata.encode new))
  unchanged : ∀ path, outside.Spares path → (∀ c ∈ changes, path ≠ plan.workspace.pathOf c.path) →
    s'.world.disk.find? path = s.world.disk.find? path

theorem pathOf_inj {w : Workspace} {file other : String} :
    w.pathOf file = w.pathOf other ↔ file = other := by
  simp [Workspace.pathOf]

theorem eq_append_of_behind? {beginning path rest : String}
    (h : Disk.behind? beginning path = some rest) : path = beginning ++ rest := by
  unfold Disk.behind? at h
  split at h <;> cases h
  case isTrue start =>
    obtain ⟨tail, whole⟩ := List.isPrefixOf_iff_prefix.mp start
    apply String.toList_inj.mp
    rw [String.toList_append, String.toList_ofList, ← whole, ← String.length_toList, List.drop_left]

theorem nodup_inventory {d : Disk} {base : String} (excluded : List (String → Bool))
    (distinct : d.entries.Pairwise fun e f => e.1 ≠ f.1) :
    (Workspace.inventory d base excluded).Nodup := by
  refine (List.mergeSort_perm _ _).nodup_iff.mpr (List.Pairwise.filter _ ?_)
  refine distinct.filterMap _ fun e f ne file hf file' hf' same => ne ?_
  dsimp only at hf hf'
  split at hf
  case h_2 | h_3 => cases hf
  case h_1 =>
    split at hf'
    case h_2 | h_3 => cases hf'
    case h_1 => rw [eq_append_of_behind? hf, eq_append_of_behind? hf', same]

-- A workspace that was found lists each of its files once.
theorem nodup_files_of_discover {readers : Readers} {d : Disk} {root : Location}
    {exclude : List String} {w : Workspace}
    (distinct : d.entries.Pairwise fun e f => e.1 ≠ f.1)
    (h : Workspace.discover readers d root exclude = .ok w) : w.files.Nodup := by
  unfold Workspace.discover at h
  split at h
  case h_1 => cases h
  case h_2 path _ =>
    split at h
    case isFalse => cases h
    case isTrue =>
      obtain ⟨excluded, _, h⟩ := bind_eq_ok.mp h
      cases h
      exact nodup_inventory excluded distinct

namespace Accounted

theorem refl : Accounted plan outside s s [] where
  changed := by simp
  unchanged _ _ _ := rfl

-- Changes of different files can be told one after the other.
theorem trans (h : Accounted plan outside s s' changes) (h' : Accounted plan outside s' s'' changes')
    (distinct : ∀ c ∈ changes, ∀ c' ∈ changes', c.path ≠ c'.path) :
    Accounted plan outside s s'' (changes ++ changes') where
  changed c hc spares := by
    rcases List.mem_append.mp hc with hc | hc
    case inl =>
      have ⟨bytes, old, metadata, new, start, decoded, replay, stop⟩ := h.changed c hc spares
      refine ⟨bytes, old, metadata, new, start, decoded, replay, ?_⟩
      rw [← stop]
      exact h'.unchanged _ spares fun c' hc' same => distinct c hc c' hc' (pathOf_inj.mp same)
    case inr =>
      have ⟨bytes, old, metadata, new, start, decoded, replay, stop⟩ := h'.changed c hc spares
      refine ⟨bytes, old, metadata, new, ?_, decoded, replay, stop⟩
      rw [← start, eq_comm]
      exact h.unchanged _ spares fun c' hc' same => distinct c' hc' c hc (pathOf_inj.mp same).symm
  unchanged path spares others := by
    have ⟨first, last⟩ := List.forall_mem_append.mp others
    rw [h'.unchanged path spares last, h.unchanged path spares first]

end Accounted

-- One step accounts for itself.
theorem reviseFile_accounted (dry : plan.dryRun = false)
    (h : reviseFile plan outside rules p file s = .ok p' s') :
    ∃ changes, p'.report.changes = p.report.changes ++ changes ∧
      (changes.map FileChange.path).Sublist [file] ∧ (∀ c ∈ changes, c.written) ∧
        Accounted plan outside s s' changes := by
  rcases @reviseFile_cases σ plan outside rules file dry p s with left | written
  case inl =>
    rw [h] at left
    refine ⟨[], by simp [left.unrecorded rfl], by simp, by simp, ?_⟩
    exact ⟨by simp, fun path spares _ => left.unchanged path spares⟩
  case inr =>
    obtain ⟨_, _, source, w, change, text, heq, writes⟩ := written
    rw [h] at heq
    cases heq
    refine ⟨[change], writes.recorded, by simp [writes.path], by simp [writes.written], ?_, ?_⟩
    case refine_1 =>
      rintro c hc spares
      cases List.mem_singleton.mp hc
      rw [writes.path] at spares ⊢
      have ⟨verdicts, judged, _⟩ := writes.judged
      have ⟨bytes, read, decoded, _⟩ := SourceDocument.exists_of_read judged.read
      exact ⟨bytes, source.text, source.metadata, text, Disk.find?_of_read read, decoded,
        writes.replay, writes.bytes⟩
    case refine_2 =>
      intro path spares other
      rw [writes.others path (writes.path ▸ other change List.mem_cons_self),
        writes.attends.find?_eq spares]

theorem foldlM_reviseFile_accounted (dry : plan.dryRun = false) (distinct : files.Nodup)
    (h : files.foldlM (reviseFile plan outside rules) p s = .ok p' s') :
    ∃ changes, p'.report.changes = p.report.changes ++ changes ∧
      (changes.map FileChange.path).Sublist files ∧ (∀ c ∈ changes, c.written) ∧
        Accounted plan outside s s' changes := by
  induction files generalizing p s with
  | nil =>
    cases h
    exact ⟨[], by simp, by simp, by simp, .refl⟩
  | cons file files ih =>
    rw [List.foldlM_cons, bind_apply] at h
    split at h
    case h_2 => cases h
    case h_1 q s₁ hs =>
      have ⟨fresh, distinct⟩ := List.nodup_cons.mp distinct
      have ⟨first, recorded, listed, written, accounted⟩ := reviseFile_accounted dry hs
      have ⟨rest, recorded', listed', written', accounted'⟩ := ih distinct h
      refine ⟨first ++ rest, by rw [recorded', recorded, List.append_assoc], ?_, ?_, ?_⟩
      case refine_1 =>
        rw [List.map_append]
        exact listed.append listed'
      case refine_2 => exact List.forall_mem_append.mpr ⟨written, written'⟩
      case refine_3 =>
        refine accounted.trans accounted' fun c hc c' hc' same => fresh ?_
        have here := List.mem_singleton.mp (listed.subset (List.mem_map_of_mem hc))
        rw [← here, same]
        exact listed'.subset (List.mem_map_of_mem hc')

-- A category that comes to its end has recorded each file it wrote, in the order of the files, and
-- every file is as the record says.
theorem reviseFiles_accounted {report : CategoryReport} (dry : plan.dryRun = false)
    (distinct : files.Nodup) (h : reviseFiles plan outside rules files s = .ok report s') :
    (report.changes.map FileChange.path).Sublist files ∧ (∀ c ∈ report.changes, c.written) ∧
      Accounted plan outside s s' report.changes := by
  unfold reviseFiles at h
  split at h
  case isFalse =>
    cases h
    exact ⟨by simp, by simp, .refl⟩
  case isTrue =>
    rw [bind_apply] at h
    split at h
    case h_2 => cases h
    case h_1 p s₁ hs =>
      have ⟨changes, recorded, listed, written, accounted⟩ :=
        foldlM_reviseFile_accounted dry distinct hs
      rw [List.nil_append] at recorded
      subst recorded
      split at h <;> cases h <;> exact ⟨listed, written, accounted⟩

end Repin.Run
