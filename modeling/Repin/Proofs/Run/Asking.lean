import Repin.Proofs.State
import Repin.Run.Documents
/-!
# Runs that only ask

Much of a run does nothing to the world itself: it checks whether it is to stop, and it asks the
registry. What the world is like afterwards is up to the registry.
-/
namespace Repin

variable {σ α β : Type} {outside : Collaborators σ} {w w' w'' : World σ} {path : String}

-- How checks and questions to the registry change a world.
inductive Attends (outside : Collaborators σ) (w : World σ) : World σ → Prop where
  | refl : Attends outside w w
  | check {v : World σ} :
    Attends outside w v → Attends outside w { v with cancellation := v.cancellation.next }
  | answer {v : World σ} {registry : String → String → StateM (World σ) DigestAnswer}
      (image tag : String) : outside.registry = some registry → Attends outside w v →
    Attends outside w (registry image tag v).2

-- Whether the registry leaves a path of the disk alone while it is asked.
def Collaborators.Spares (outside : Collaborators σ) (path : String) : Prop :=
  ∀ registry image tag w, outside.registry = some registry →
    (registry image tag w).2.disk.find? path = w.disk.find? path

namespace Attends

theorem trans (h : Attends outside w w') (h' : Attends outside w' w'') : Attends outside w w'' := by
  induction h' with
  | refl => exact h
  | check _ ih => exact ih.check
  | answer image tag hr _ ih => exact ih.answer image tag hr

theorem find?_eq (h : Attends outside w w') (spares : outside.Spares path) :
    w'.disk.find? path = w.disk.find? path := by
  induction h with
  | refl => rfl
  | check _ ih => exact ih
  | answer image tag hr _ ih => rw [spares _ image tag _ hr, ih]

end Attends

-- The state in which a part of a run ends.
def RunM.final : EStateM.Result RunStop (RunState σ) α → RunState σ
  | .ok _ s => s
  | .error _ s => s

-- A part of a run that does nothing to the world but check and ask, and that ends early only where it
-- is told to, or by one of some faults.
structure OnlyAsks (outside : Collaborators σ) (faults : Fault → Prop) (x : RunM σ α) : Prop where
  attends : ∀ s, Attends outside s.world (RunM.final (x s)).world
  stopped : ∀ {s stop s'}, x s = .error stop s' →
    stop = .failed .cancelled ∧ s'.world.cancellation.isDue ∨ ∃ f, faults f ∧ stop = .fault f

namespace OnlyAsks

variable {x : RunM σ α} {f : α → RunM σ β} {faults faults' : Fault → Prop}

theorem mono (hx : OnlyAsks outside faults x) (h : ∀ f, faults f → faults' f) :
    OnlyAsks outside faults' x where
  attends := hx.attends
  stopped stops := (hx.stopped stops).imp_right fun ⟨f, hf, same⟩ => ⟨f, h f hf, same⟩

theorem of_pure (a : α) : OnlyAsks outside faults (pure a : RunM σ α) where
  attends _ := .refl
  stopped h := nomatch h

theorem bind (hx : OnlyAsks outside faults x) (hf : ∀ a, OnlyAsks outside faults (f a)) :
    OnlyAsks outside faults (x >>= f) where
  attends s := by
    have first := hx.attends s
    rw [bind_apply]
    cases hs : x s with
    | ok a s' =>
      rw [hs] at first
      exact first.trans ((hf a).attends s')
    | error stop s' => rwa [hs] at first
  stopped {s stop s'} h := by
    rw [bind_apply] at h
    split at h
    case h_1 a s₁ _ => exact (hf a).stopped h
    case h_2 e s₁ he =>
      cases h
      exact hx.stopped he

theorem map (hx : OnlyAsks outside faults x) (f : α → β) : OnlyAsks outside faults (f <$> x) where
  attends s := by
    have first := hx.attends s
    rw [map_apply]
    cases hs : x s <;> rwa [hs] at first
  stopped {s stop s'} h := by
    rw [map_apply] at h
    split at h
    case h_1 => cases h
    case h_2 e s₁ he =>
      cases h
      exact hx.stopped he

theorem mapM {f : α → RunM σ β} {as : List α} (hf : ∀ a ∈ as, OnlyAsks outside faults (f a)) :
    OnlyAsks outside faults (as.mapM f) := by
  induction as with
  | nil => exact of_pure []
  | cons a as ih =>
    rw [List.mapM_cons]
    have ⟨first, rest⟩ := List.forall_mem_cons.mp hf
    exact first.bind fun b => (ih rest).bind fun bs => of_pure (b :: bs)

theorem checkpoint : OnlyAsks outside faults (RunM.checkpoint : RunM σ Unit) where
  attends s := by
    unfold RunM.checkpoint
    dsimp only
    split <;> exact .check .refl
  stopped {s stop s'} h := by
    obtain ⟨rfl, due, rfl⟩ := RunM.checkpoint_eq_error h
    exact .inl ⟨rfl, Cancellation.isDue_next due⟩

theorem of_get : OnlyAsks outside faults (get : RunM σ (RunState σ)) where
  attends _ := .refl
  stopped h := nomatch h

-- What a run keeps for itself is no part of the world.
theorem of_modify {f : RunState σ → RunState σ} (hf : ∀ s, (f s).world = s.world) :
    OnlyAsks outside faults (modify f : RunM σ PUnit) where
  attends s := by
    rw [modify_apply, RunM.final, hf]
    exact .refl
  stopped h := nomatch h

theorem diagnose (d : Diagnostic) : OnlyAsks outside faults (RunM.diagnose d : RunM σ Unit) where
  attends _ := .refl
  stopped h := nomatch h

theorem ask {registry : String → String → StateM (World σ) DigestAnswer}
    (h : outside.registry = some registry) (image tag : String) :
    OnlyAsks outside faults (RunM.ask (registry image tag)) where
  attends _ := .answer image tag h .refl
  stopped h := nomatch h

theorem digest {registry : String → String → StateM (World σ) DigestAnswer}
    (h : outside.registry = some registry) (image tag : String) :
    OnlyAsks outside faults (RunM.digest registry image tag) := by
  unfold RunM.digest
  refine checkpoint.bind fun _ => of_get.bind fun s => .bind ?_ fun answer => ?_
  case refine_1 =>
    unfold DigestCache.resolve
    split
    case h_1 => exact of_pure _
    case h_2 => exact (ask h image tag).bind fun _ => of_pure _
  case refine_2 =>
    obtain ⟨answer, digests⟩ := answer
    have kept (s : RunState σ) : { s with digests }.world = s.world := rfl
    exact (of_modify kept).bind fun _ => of_pure answer

theorem ofFault (x : Except Fault α) : OnlyAsks outside (x = .error ·) (RunM.ofFault x) where
  attends s := by
    rw [RunM.ofFault_apply]
    cases x <;> exact .refl
  stopped h := by
    rw [RunM.ofFault_apply] at h
    cases x <;> cases h
    exact .inr ⟨_, rfl, rfl⟩

theorem pinnedVerdict (c : Candidate) (text : String) : OnlyAsks outside faults
    (Revision.pinnedVerdict (Run.lookup outside) c text) := by
  unfold Revision.pinnedVerdict Run.lookup
  cases hr : outside.registry with
  | none => split <;> exact of_pure _
  | some registry =>
    split
    case h_1 => exact of_pure _
    case h_2 => exact (digest hr _ _).map _

-- Only the decision on the token of a candidate may be a fault.
theorem verdict {rules : DocumentRules} {channel : Channel} {policy : UpgradePolicy}
    {newline : Newline} (c : Candidate) :
    OnlyAsks outside (Decision.of c.token channel policy newline = .error ·)
      (Revision.verdict rules channel policy (Run.lookup outside) newline c) := by
  unfold Revision.verdict
  refine (ofFault _).bind fun d => ?_
  cases d with
  | unchanged | unsupported => exact of_pure _
  | replace text =>
    dsimp only
    split
    case h_1 => exact of_pure _
    case h_2 => exact pinnedVerdict c text

end OnlyAsks
end Repin
