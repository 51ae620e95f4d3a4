import Repin.Run.Basic
import Repin.Upgrader.Documents
/-!
# Requests

What a user asks for: the workspace, the channel it is to reach, and what to leave out. A request can
only take away from what the settings of the workspace allow.
-/
namespace Repin

structure UpgradeRequest where
  root : Location
  -- The channel as `MAJOR.MINOR`.
  channel : String
  sdkVersion : Option String := none
  releaseKind : Option String := none
  supportPhase : Option String := none
  dryRun : Bool := false
  -- Upgraders to leave out besides those that the settings disable.
  disable : List String := []
  noPackages : Bool := false
  offline : Bool := false
  deriving DecidableEq, Repr

namespace UpgradeRequest

-- The settings under the request.
def apply (r : UpgradeRequest) (s : Settings) : Settings :=
  let narrowed : Settings :=
    { s with
      dryRun := s.dryRun || r.dryRun
      packages := { s.packages with enabled := s.packages.enabled && !r.noPackages }
      registry := { s.registry with enabled := s.registry.enabled && !r.offline } }
  r.disable.foldl Settings.disable narrowed

-- Refuses settings that disable an upgrader which does not exist.
def checkNames (s : Settings) : Except RunError Unit :=
  match s.disabled.find? fun name => !Upgrader.names.contains name with
  | none => .ok ()
  | some unknown =>
    .error (.invalidArguments
      ("unknown upgrader '" ++ unknown ++ "' (known: " ++ ", ".intercalate Upgrader.names ++ ")"))

-- The settings of a run: those of the workspace under the request.
def settings (r : UpgradeRequest) (readers : Readers) (d : Disk) : Except RunError Settings := do
  let s := r.apply (← Settings.load readers d r.root)
  checkNames s
  return s

-- The channel that is asked for.
def target (r : UpgradeRequest) : Except RunError Channel :=
  (Channel.ofTexts r.channel r.sdkVersion r.releaseKind r.supportPhase).mapError
    RunError.ofChannelError

-- The plan of a run over a disk.
def plan (r : UpgradeRequest) (readers : Readers) (s : Settings) (d : Disk) :
    Except RunError RunPlan := do
  let channel ← r.target
  let workspace ← Workspace.discover readers d r.root s.exclude
  return { readers, workspace, channel, policy := {}, settings := s, dryRun := s.dryRun }

-- Collaborators of whom the registry is asked only where settings allow it.
def permitted (s : Settings) (outside : Collaborators σ) : Collaborators σ :=
  if s.registry.enabled then outside else { outside with registry := none }

-- Runs all upgraders for a request.
def run (r : UpgradeRequest) (readers : Readers) (s : Settings) (outside : Collaborators σ)
    (world : World σ) : Except RunStop RunReport × World σ :=
  match r.plan readers s world.disk with
  | .error e => (.error (.failed e), world)
  | .ok plan => Run.execute plan (permitted s outside) Upgrader.all world

end UpgradeRequest
end Repin
