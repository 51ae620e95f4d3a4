import Repin.Locate.Site
import Repin.Version.Channel
/-!
# Errors

A `DocumentError` concerns one file, and a run goes on behind it. A `RunError` ends the run; its exit
code tells what went wrong.
-/
namespace Repin

-- A failure to read, parse or write one document.
inductive DocumentError where
  | unreadable (path cause : String)
  | undecodable (path encoding : String)
  | malformed (error : SyntaxError)
  -- The file changed between reading and writing it.
  | modified (path : String)
  | unwritable (path cause : String)
  deriving DecidableEq

namespace DocumentError

def message : DocumentError → String
  | unreadable path cause => "failed to read " ++ path ++ ": " ++ cause
  | undecodable path encoding => path ++ " is not valid " ++ encoding ++ " text"
  | malformed error => error.render
  | modified path => path ++ " was modified while the upgrade was running"
  | unwritable path cause => "failed to write " ++ path ++ ": " ++ cause

-- Whether the document was to be written when the failure happened.
def isWriteFailure : DocumentError → Bool
  | modified _ | unwritable _ _ => true
  | unreadable _ _ | undecodable _ _ | malformed _ => false

end DocumentError

-- What an exit code stands for.
inductive ExitCause where
  | invalidArguments
  | discovery
  | write
  | upgradeFailed
  | internal
  | cancelled
  deriving DecidableEq, Repr

def ExitCause.code : ExitCause → Nat
  | invalidArguments => 2
  | discovery => 3
  | write => 4
  | upgradeFailed => 5
  | internal => 10
  | cancelled => 130

-- A failure that ends a run.
inductive RunError where
  | invalidArguments (message : String)
  | workspace (path message : String)
  | config (message : String)
  | document (error : DocumentError)
  -- An external tool could not be started.
  | process (program message : String)
  -- A registry lookup failed; an image that is not found is no failure.
  | registry (image tag message : String)
  -- The run was completed, but some categories ended with an error.
  | upgradeFailed (categories : List String)
  | cancelled
  | internal (message : String)
  deriving DecidableEq

namespace RunError

def message : RunError → String
  | invalidArguments message => "invalid arguments: " ++ message
  | workspace path message => "workspace error at " ++ path ++ ": " ++ message
  | config message => "config error: " ++ message
  | document error => error.message
  | process program message => "failed to run " ++ program ++ ": " ++ message
  | registry image tag message =>
    "registry lookup for " ++ image ++ ":" ++ tag ++ " failed: " ++ message
  | upgradeFailed categories => "upgrade finished with errors in: " ++ ", ".intercalate categories
  | cancelled => "upgrade cancelled"
  | internal message => "internal error: " ++ message

def cause : RunError → ExitCause
  | invalidArguments _ | config _ => .invalidArguments
  | workspace _ _ => .discovery
  | document error => if error.isWriteFailure then .write else .discovery
  | process _ _ | registry _ _ _ | internal _ => .internal
  | upgradeFailed _ => .upgradeFailed
  | cancelled => .cancelled

-- The exit code of a run that ended with the error.
def code (e : RunError) : Nat :=
  e.cause.code

-- A channel that cannot be built is a mistake in the arguments.
def ofChannelError (e : ChannelError) : RunError :=
  .invalidArguments e.message

end RunError
end Repin
