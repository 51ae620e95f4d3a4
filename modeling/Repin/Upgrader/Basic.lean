import Repin.Dockerfile.Document
import Repin.Json.Document
import Repin.Readers
import Repin.Version.Channel
import Repin.Yaml.Node
/-!
# Upgraders

An upgrader is responsible for one category of files. It says by patterns which files these are. Most
upgraders revise documents; their rules say where in a document a version stands. One hands the work
to an external tool.
-/
namespace Repin

inductive DocumentFormat where
  | json
  | yaml
  | xml
  | dockerfile
  deriving DecidableEq, Repr

namespace DocumentFormat

def name : DocumentFormat → String
  | json => "json"
  | yaml => "yaml"
  | xml => "xml"
  | dockerfile => "dockerfile"

-- What follows the last dot of a path, in lower case.
def extension? (path : String) : Option String :=
  let cs := path.toList
  if cs.contains '.' then
    some (String.ofList (Text.lowercase (cs.reverse.takeWhile (· != '.')).reverse))
  else
    none

-- The format of a file by the end of its name. Names that say nothing stand for JSON.
def ofPath (path : String) : DocumentFormat :=
  match extension? path with
  | some "yml" | some "yaml" => yaml
  | some "csproj" | some "fsproj" | some "vbproj" | some "props" | some "targets" | some "xml" => xml
  | _ => json

-- The sites of a text in a format.
def sites (format : DocumentFormat) (readers : Readers) (text : String) :
    Except SyntaxError (List Site) :=
  match format with
  | json => (Json.parse text).map Json.sites
  | yaml => (readers.yaml text).map fun events => Yaml.Node.sites (Yaml.Node.read text events)
  | xml => (readers.xml text).map (Xml.sites text)
  | dockerfile => .ok (Dockerfile.sites text)

end DocumentFormat

-- How a category shows and when its turn comes.
structure UpgraderInfo where
  name : String
  -- Which files belong to the category.
  patterns : List String
  -- Lower numbers run first.
  priority : Nat
  deriving DecidableEq, Repr

-- The rules of a category whose documents are revised.
structure DocumentRules where
  info : UpgraderInfo
  -- The format of a file.
  formatOf : String → DocumentFormat := DocumentFormat.ofPath
  -- Whether the category has anything to do for a channel.
  appliesTo : Channel → Bool := fun _ => true
  -- Where in the document of a path a version stands.
  select : String → Selector
  -- Whether images that are pinned by a digest need the digest of their new tag.
  pinsDigests : Bool := false
  -- The line of the changelog for a category in which a file was changed.
  changelog : Channel → String

inductive Upgrader where
  | documents (rules : DocumentRules)
  | packages (info : UpgraderInfo)

namespace Upgrader

def info : Upgrader → UpgraderInfo
  | documents rules => rules.info
  | packages info => info

-- Whether one upgrader does not run after another: by priority, then by name.
def runsBefore (a b : Upgrader) : Bool :=
  ((compare a.info.priority b.info.priority).then (compare a.info.name b.info.name)).isLE

-- Upgraders in the order in which they run.
def inOrder (upgraders : List Upgrader) : List Upgrader :=
  upgraders.mergeSort runsBefore

end Upgrader

-- MSBuild project and property files.
def projectPatterns : List String :=
  ["**/*.csproj", "**/*.fsproj", "**/*.vbproj", "**/*.props", "**/*.targets"]

end Repin
