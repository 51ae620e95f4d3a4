import Repin.Run.State
/-!
# Results of computations with a state

Steps are taken one after another, each from the state that the last one leaves, until one fails.
-/
namespace Repin

variable {α β ε σ : Type} {x : EStateM ε σ α} {f : α → EStateM ε σ β} {s : σ}

theorem bind_apply : (x >>= f) s =
    match x s with
    | .ok a s => f a s
    | .error e s => .error e s := by
  simp only [bind, EStateM.bind]
  cases x s <;> rfl

-- Where two parts come to their end, so does the first of them.
theorem exists_of_bind {b : β} {s' : σ} (h : (x >>= f) s = .ok b s') :
    ∃ a s₁, x s = .ok a s₁ ∧ f a s₁ = .ok b s' := by
  rw [bind_apply] at h
  split at h
  case h_1 a s₁ hx => exact ⟨a, s₁, hx, h⟩
  case h_2 => cases h

-- Where two parts end early, one of them does.
theorem error_of_bind {e : ε} {s' : σ} (h : (x >>= f) s = .error e s') :
    x s = .error e s' ∨ ∃ a s₁, x s = .ok a s₁ ∧ f a s₁ = .error e s' := by
  rw [bind_apply] at h
  split at h
  case h_1 a s₁ hx => exact .inr ⟨a, s₁, hx, h⟩
  case h_2 hx =>
    cases h
    exact .inl hx

theorem map_apply {f : α → β} : (f <$> x) s =
    match x s with
    | .ok a s => .ok (f a) s
    | .error e s => .error e s := by
  simp only [Functor.map, EStateM.map]
  cases x s <;> rfl

theorem get_apply : (get : EStateM ε σ σ) s = .ok s s := rfl

theorem modify_apply {f : σ → σ} : (modify f : EStateM ε σ PUnit) s = .ok .unit (f s) := rfl

theorem throw_apply {e : ε} : (throw e : EStateM ε σ α) s = .error e s := rfl

theorem tryCatch_apply {handle : ε → EStateM ε σ α} : (tryCatch x handle) s =
    match x s with
    | .ok a s => .ok a s
    | .error e s => handle e s := by
  change EStateM.tryCatch x handle s = _
  delta EStateM.tryCatch
  dsimp only
  cases x s <;> rfl

theorem adaptExcept_apply {ε' : Type} {f : ε → ε'} : x.adaptExcept f s =
    match x s with
    | .ok a s => .ok a s
    | .error e s => .error (f e) s := by
  simp only [EStateM.adaptExcept]
  cases x s <;> rfl

-- What each step of a fold keeps, the fold keeps.
theorem foldlM_kept {P : β → σ → Prop} {f : β → α → EStateM ε σ β} {as : List α} {b b' : β} {s' : σ}
    (h : as.foldlM f b s = .ok b' s')
    (kept : ∀ a ∈ as, ∀ {b b' s s'}, f b a s = .ok b' s' → P b s → P b' s') (start : P b s) :
    P b' s' := by
  induction as generalizing b s with
  | nil =>
    cases h
    exact start
  | cons a as ih =>
    rw [List.foldlM_cons] at h
    obtain ⟨b₁, s₁, first, rest⟩ := exists_of_bind h
    refine ih rest (fun a' ha => kept a' (List.mem_cons_of_mem a ha)) ?_
    exact kept a List.mem_cons_self first start

-- A fold that ends early has taken some steps and then ended in one.
theorem exists_of_foldlM_error {f : β → α → EStateM ε σ β} {as : List α} {b : β} {e : ε} {s' : σ}
    (h : as.foldlM f b s = .error e s') :
    ∃ before a after b' s₁, as = before ++ a :: after ∧ before.foldlM f b s = .ok b' s₁ ∧
      f b' a s₁ = .error e s' := by
  induction as generalizing b s with
  | nil => cases h
  | cons a as ih =>
    rw [List.foldlM_cons] at h
    rcases error_of_bind h with here | ⟨b₁, s₁, first, rest⟩
    case inl => exact ⟨[], a, as, b, s, rfl, rfl, here⟩
    case inr =>
      obtain ⟨before, a', after, b', s₂, rfl, steps, last⟩ := ih rest
      refine ⟨a :: before, a', after, b', s₂, rfl, ?_, last⟩
      rw [List.foldlM_cons, bind_apply, first]
      exact steps

-- The state behind a check.
def RunState.checked (s : RunState σ) : RunState σ :=
  { s with world := { s.world with cancellation := s.world.cancellation.next } }

namespace RunM

variable {s s' : RunState σ}

theorem checkpoint_eq_ok (h : checkpoint s = .ok () s') :
    s.world.cancellation.isDue = false ∧ s' = s.checked := by
  unfold checkpoint at h
  dsimp only at h
  split at h <;> cases h
  case isFalse undue => exact ⟨by simpa using undue, rfl⟩

theorem checkpoint_eq_error {stop : RunStop} (h : checkpoint s = .error stop s') :
    stop = .failed .cancelled ∧ s.world.cancellation.isDue ∧ s' = s.checked := by
  unfold checkpoint at h
  dsimp only at h
  split at h <;> cases h
  case isTrue due => exact ⟨rfl, due, rfl⟩

theorem ofFault_apply {x : Except Fault α} : (ofFault x : RunM σ α) s =
    match x with
    | .ok a => .ok a s
    | .error f => .error (.fault f) s := by
  cases x <;> rfl

theorem exists_of_ofFault_bind {x : Except Fault α} {f : α → RunM σ β} {b : β} {s' : RunState σ}
    (h : (ofFault x >>= f) s = .ok b s') : ∃ a, x = .ok a ∧ f a s = .ok b s' := by
  cases x with
  | ok a => exact ⟨a, rfl, h⟩
  | error => cases h

theorem exists_of_ofExcept_bind {x : Except RunError α} {f : α → RunM σ β} {b : β} {s' : RunState σ}
    (h : (ofExcept x >>= f) s = .ok b s') : ∃ a, x = .ok a ∧ f a s = .ok b s' := by
  cases x with
  | ok a => exact ⟨a, rfl, h⟩
  | error => cases h

theorem ask_apply {question : StateM (World σ) α} : (ask question : RunM σ α) s =
    .ok (question s.world).1 { s with world := (question s.world).2 } := rfl

end RunM
end Repin
