import Repin.Proofs.Run.Asking
import Repin.Run.Basic
/-!
# Courses of runs

Whatever a run does to the world, it does action by action: it checks whether it is to stop, looks at the
disk, asks, tells and writes. A course is a part of a run written down in this way. Its events are what
can be noticed of it from outside. What each action keeps, the whole course keeps. Main statement:
`Course.final_perform`.
-/
namespace Repin.Run

variable {σ α β : Type}

-- The single actions of a run, by the answers that they get.
inductive Action : Type → Type where
  | check : Action Unit
  | look : Action Disk
  | consult : Action DigestCache
  | review : Action (List Diagnostic)
  | remember (digests : DigestCache) : Action Unit
  | tell (d : Diagnostic) : Action Unit
  | ask (image tag : String) : Action DigestAnswer
  | start (call : ToolCall) : Action (Except RunError ToolOutput)
  | write (readers : Readers) (source : SourceDocument) (text : String) :
    Action (Except DocumentError Unit)

-- What can be noticed of a run.
inductive Event where
  -- A check that let the run go on.
  | passed
  -- A check that saw the signal.
  | cancelled
  -- The run ended for a reason of its own.
  | stopped (why : RunStop)
  | told (d : Diagnostic)
  | asked (image tag : String)
  | started (call : ToolCall)
  | wrote (path : String)

-- Events that touch nothing but what the registry touches when it is asked.
def Event.IsHarmless : Event → Prop
  | passed | cancelled | stopped _ | told _ | asked _ _ => True
  | started _ | wrote _ => False

-- A part of a run, action by action. What comes after an action depends on the answer.
inductive Course (α : Type) : Type 1 where
  | done (a : α)
  | stop (why : RunStop) (other : why ≠ .failed .cancelled)
  | act {β : Type} (action : Action β) (rest : β → Course α)

-- The answer of the registry. Nobody knows a digest where there is none.
def answerOf (outside : Collaborators σ) : String → String → StateM (World σ) DigestAnswer :=
  outside.registry.getD fun _ _ => pure (.ok none)

namespace Action

-- What is noticed of an action that does not end the run.
def event? : Action β → Option Event
  | check => some .passed
  | look | consult | review | remember _ => none
  | tell d => some (.told d)
  | ask image tag => some (.asked image tag)
  | start call => some (.started call)
  | write _ source _ => some (.wrote source.path)

-- What is noticed of an action in a state.
def seen (s : RunState σ) : Action β → Option Event
  | check => some (if s.world.cancellation.isDue then .cancelled else .passed)
  | action => action.event?

def take (outside : Collaborators σ) : Action β → RunM σ β
  | check => RunM.checkpoint
  | look => (·.world.disk) <$> get
  | consult => (·.digests) <$> get
  | review => (·.diagnostics) <$> get
  | remember digests => modify fun s => { s with digests }
  | tell d => RunM.diagnose d
  | ask image tag => RunM.ask (answerOf outside image tag)
  | start call => RunM.ask (outside.runTool call)
  | write readers source text => writeBack readers source text

variable {outside : Collaborators σ} {action : Action β} {s s' : RunState σ} {stop : RunStop}

-- Only a check ends a run, and only where it sees the signal, which is still there then.
theorem take_eq_error (h : action.take outside s = .error stop s') :
    stop = .failed .cancelled ∧ s'.world.cancellation.isDue := by
  cases action with
  | check =>
    obtain ⟨rfl, due, rfl⟩ := RunM.checkpoint_eq_error h
    exact ⟨rfl, Cancellation.isDue_next due⟩
  | look | consult | review | remember | tell | ask | start | write => cases h

theorem seen_of_error (h : action.take outside s = .error stop s') : action.seen s = some .cancelled := by
  cases action with
  | check =>
    obtain ⟨_, due, _⟩ := RunM.checkpoint_eq_error h
    rw [seen, if_pos due]
  | look | consult | review | remember | tell | ask | start | write => cases h

theorem seen_of_ok {answer : β} (h : action.take outside s = .ok answer s') :
    action.seen s ≠ some .cancelled := by
  cases action with
  | check =>
    obtain ⟨undue, _⟩ := RunM.checkpoint_eq_ok h
    simp [seen, undue]
  | look | consult | review | remember | tell | ask | start | write => simp [seen, event?]

end Action

namespace Course

-- Carries out a course.
def perform (outside : Collaborators σ) : Course α → RunM σ α
  | done a => pure a
  | stop why _ => throw why
  | act action rest => action.take outside >>= fun answer => (rest answer).perform outside

-- One course after another.
def bind : Course α → (α → Course β) → Course β
  | done a, f => f a
  | stop why other, _ => stop why other
  | act action rest, f => act action fun answer => (rest answer).bind f

-- The events of a course from a state on.
def events (outside : Collaborators σ) : Course α → RunState σ → List Event
  | done _, _ => []
  | stop why _, _ => [.stopped why]
  | act action rest, s => (action.seen s).toList ++
    match action.take outside s with
    | .ok answer s => (rest answer).events outside s
    | .error _ _ => []

-- Whether the events of a course are of a kind, whatever the answers are and wherever it is cancelled.
def Only (kind : Event → Prop) : Course α → Prop
  | done _ => True
  | stop why _ => kind (.stopped why)
  | act action rest => (∀ e ∈ action.event?, kind e) ∧ ∀ answer, (rest answer).Only kind

variable {outside : Collaborators σ} {kind : Event → Prop} {course : Course α} {f : α → Course β}
variable {s s' : RunState σ} {stop : RunStop}

theorem perform_bind :
    (course.bind f).perform outside = course.perform outside >>= fun a => (f a).perform outside := by
  induction course with
  | done => rfl
  | stop => rfl
  | act action rest ih => simp only [bind, perform, ih, bind_assoc]

theorem Only.bind (h : course.Only kind) (hf : ∀ a, (f a).Only kind) : (course.bind f).Only kind := by
  induction course with
  | done a => exact hf a
  | stop => exact h
  | act action rest ih => exact ⟨h.1, fun answer => ih answer (h.2 answer)⟩

-- What every action of a kind keeps, a course of the kind keeps.
theorem final_perform {P : RunState σ → Prop} (only : course.Only kind)
    (kept : ∀ {β : Type} (action : Action β) s, (∀ e ∈ action.event?, kind e) → P s →
      P (RunM.final (action.take outside s)))
    (h : P s) : P (RunM.final (course.perform outside s)) := by
  induction course generalizing s with
  | done | stop => exact h
  | act action rest ih =>
    have first := kept action s only.1 h
    rw [perform, bind_apply]
    cases hs : action.take outside s with
    | ok answer s' =>
      rw [hs] at first
      exact ih answer (only.2 answer) first
    | error stop s' => rwa [hs] at first

-- A run is cancelled where a check sees the signal, and that is the last that is noticed of it.
theorem events_of_cancelled (h : course.perform outside s = .error (.failed .cancelled) s') :
    ∃ before, course.events outside s = before ++ [.cancelled] ∧ .cancelled ∉ before := by
  induction course generalizing s with
  | done => cases h
  | stop why other =>
    cases h
    exact absurd rfl other
  | act action rest ih =>
    rw [perform, bind_apply] at h
    rw [events]
    cases hs : action.take outside s with
    | error => exact ⟨[], by rw [Action.seen_of_error hs]; rfl, by simp⟩
    | ok answer s₁ =>
      rw [hs] at h
      obtain ⟨before, heq, unseen⟩ := ih answer h
      refine ⟨(action.seen s).toList ++ before, by rw [List.append_assoc, ← heq], ?_⟩
      simp [unseen, Action.seen_of_ok hs]

theorem cancelled_of_events (h : .cancelled ∈ course.events outside s) :
    ∃ s', course.perform outside s = .error (.failed .cancelled) s' := by
  induction course generalizing s with
  | done => simp [events] at h
  | stop => simp [events] at h
  | act action rest ih =>
    rw [perform, bind_apply]
    rw [events] at h
    cases hs : action.take outside s with
    | error stop s' =>
      cases (Action.take_eq_error hs).1
      exact ⟨s', rfl⟩
    | ok answer s₁ =>
      rw [hs] at h
      refine ih answer ((List.mem_append.mp h).resolve_left ?_)
      simp [Action.seen_of_ok hs]

-- Whom a course never asks, it does not depend on.
theorem perform_congr {runTool : ToolCall → StateM (World σ) (Except RunError ToolOutput)}
    (only : course.Only kind) (unstarted : ∀ call, ¬kind (.started call)) :
    course.perform { outside with runTool } = course.perform outside := by
  induction course with
  | done | stop => rfl
  | act action rest ih =>
    have same : action.take { outside with runTool } = action.take outside := by
      cases action with
      | start call => exact absurd (only.1 _ rfl) (unstarted call)
      | check | look | consult | review | remember | tell | ask | write => rfl
    rw [perform, perform, same]
    exact congrArg _ (funext fun answer => ih answer (only.2 answer))

-- A course that ends early was cancelled, or it stopped for a reason of its own.
theorem perform_eq_error (only : course.Only kind) (h : course.perform outside s = .error stop s') :
    (stop = .failed .cancelled ∧ s'.world.cancellation.isDue) ∨ kind (.stopped stop) := by
  induction course generalizing s with
  | done => cases h
  | stop =>
    cases h
    exact .inr only
  | act action rest ih =>
    rw [perform, bind_apply] at h
    split at h
    case h_1 answer s₁ _ => exact ih answer (only.2 answer) h
    case h_2 hs =>
      cases h
      exact .inl (Action.take_eq_error hs)

end Course
end Repin.Run
