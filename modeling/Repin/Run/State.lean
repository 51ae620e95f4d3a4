import Repin.Decision
import Repin.Registry.Digest
import Repin.Report.Basic
import Repin.Workspace
/-!
# The state of a run

A run works on a world: a disk, a signal that may stop the run, and whatever the collaborators outside
keep for themselves. A collaborator may change the world while it is asked. What the run itself keeps
are the digests that it was told and the diagnostics.
-/
namespace Repin

-- When a run is told to stop: never, or so that some of its checks still pass.
inductive Cancellation where
  | never
  | after (checks : Nat)
  deriving DecidableEq, Repr

namespace Cancellation

-- Whether the next check stops the run.
def isDue : Cancellation → Bool
  | never => false
  | after checks => checks == 0

-- What is left of the signal behind a check. It never clears.
def next : Cancellation → Cancellation
  | never => never
  | after checks => after (checks - 1)

theorem isDue_next {c : Cancellation} (h : c.isDue) : c.next.isDue := by
  cases c <;> simp_all [isDue, next]

end Cancellation

-- What a run works on.
structure World (σ : Type) where
  disk : Disk
  cancellation : Cancellation := .never
  -- What the collaborators keep.
  outside : σ

-- A tool to be run in a directory, for a number of seconds at most.
structure ToolCall where
  program : String
  arguments : List String
  directory : Location
  timeout : UInt64
  deriving DecidableEq, Repr

-- What a tool left behind. A tool that was stopped has no exit code.
structure ToolOutput where
  exitCode : Option Int
  stdout : String := ""
  stderr : String := ""
  timedOut : Bool := false
  deriving DecidableEq, Repr

def ToolOutput.isSuccess (o : ToolOutput) : Bool :=
  o.exitCode == some 0

-- Those outside whom a run asks.
structure Collaborators (σ : Type) where
  runTool : ToolCall → StateM (World σ) (Except RunError ToolOutput)
  -- The digest of an image under a tag; nobody is asked if there is no registry.
  registry : Option (String → String → StateM (World σ) DigestAnswer)

-- What is fixed during a run.
structure RunPlan where
  -- What reads the formats, patterns and bytes that are left to other libraries.
  readers : Readers
  workspace : Workspace
  channel : Channel
  policy : UpgradePolicy
  settings : Settings
  -- Whether the run only tells what it would do.
  dryRun : Bool

structure RunState (σ : Type) where
  world : World σ
  digests : DigestCache := {}
  diagnostics : List Diagnostic := []

-- Why a run ended before its end.
inductive RunStop where
  | failed (error : RunError)
  | fault (fault : Fault)
  deriving DecidableEq

-- A part of a run. Its effects stay also where it ends early.
abbrev RunM (σ : Type) := EStateM RunStop (RunState σ)

namespace RunM

variable {σ : Type}

-- Ends the run if it was told to stop.
def checkpoint : RunM σ Unit := fun s =>
  let c := s.world.cancellation
  let s := { s with world := { s.world with cancellation := c.next } }
  if c.isDue then .error (.failed .cancelled) s else .ok () s

-- Asks a collaborator.
def ask (question : StateM (World σ) α) : RunM σ α := fun s =>
  let (answer, world) := question s.world
  .ok answer { s with world }

def diagnose (d : Diagnostic) : RunM σ Unit := fun s =>
  .ok () { s with diagnostics := s.diagnostics ++ [d] }

def ofExcept : Except RunError α → RunM σ α
  | .ok a => pure a
  | .error e => throw (.failed e)

-- A fault ends the run.
def ofFault : Except Fault α → RunM σ α
  | .ok a => pure a
  | .error f => throw (.fault f)

instance : MonadLift (Except Fault) (RunM σ) :=
  ⟨ofFault⟩

-- The digest of an image under a tag, from a registry that is asked at most once for it.
def digest (registry : String → String → StateM (World σ) DigestAnswer) (image tag : String) :
    RunM σ DigestAnswer := do
  checkpoint
  let s ← get
  let (answer, digests) ← s.digests.resolve image tag (ask (registry image tag))
  modify fun s => { s with digests }
  return answer

end RunM
end Repin
