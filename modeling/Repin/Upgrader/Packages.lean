import Repin.Upgrader.Basic
import Repin.Version.Semver
/-!
# References to packages

Projects refer to packages by name and version. Some packages follow the platform; a reference to one
of them is stale when its version lies below the channel.
-/
namespace Repin

-- A reference to a package below the channel.
structure StaleReference where
  file : String
  package : String
  version : String
  deriving DecidableEq, Repr

namespace StaleReference

-- The package and version that a site names: an attribute or a child element of a reference. The
-- name is what the reference includes, or what it updates.
def packageOf? (site : Site) : Option (String × String) :=
  match site.leaf? with
  | some (.key "Version") | some (.element "Version") =>
    match site.ancestor? 1 with
    | some owner =>
      if owner.segment = .element "PackageReference" || owner.segment = .element "PackageVersion" then
        ((owner.field? "Include").or (owner.field? "Update")).map fun id => (id, site.value)
      else
        none
    | none => none
  | _ => none

-- Whether a package follows the platform.
def follows (package start : String) : Bool :=
  start.toList.isPrefixOf package.toList

-- The stale reference that a site holds, if any.
def ofSite? (file : String) (prefixes : List String) (major : UInt64) (site : Site) :
    Option StaleReference :=
  match packageOf? site with
  | none => none
  | some (package, version) =>
    if prefixes.any (follows package) then
      match Semver.parse version with
      | .ok v => if v.major < major then some ⟨file, package, version⟩ else none
      | .error _ => none
    else
      none

-- The stale references in the text of a project.
def find (readers : Readers) (file text : String) (prefixes : List String) (major : UInt64) :
    Except SyntaxError (List StaleReference) := do
  let sites ← DocumentFormat.xml.sites readers text
  return sites.filterMap (ofSite? file prefixes major)

-- The prefixes that some reference follows, sorted and each once.
def usedPrefixes (prefixes : List String) (stale : List StaleReference) : List String :=
  let used := prefixes.filter fun p => stale.any fun s => follows s.package p
  (used.mergeSort fun a b => decide (a ≤ b)).eraseReps

-- The arguments of the tool for the used prefixes.
def toolArguments (used : List String) : List String :=
  [".", "--upgrade"] ++ used.flatMap fun p => ["--include", p]

end StaleReference
end Repin
