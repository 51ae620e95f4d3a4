import Repin.Upgrader.Basic
import Repin.Upgrader.MonikerPath
/-!
# The categories of documents

Where the versions of a repository stand: the pinned SDK, the frameworks and runtime identifiers of
projects, the setup steps of pipelines, container images, managed runtimes, and the paths of editor
settings.
-/
namespace Repin.Upgrader

-- The whole value, read in a grammar.
def whole (kind : TokenKind) : Option Selection :=
  some { kind }

-- The pinned SDK version.
def globalJson : DocumentRules where
  info := { name := "global-json", patterns := ["**/global.json"], priority := 10 }
  select _ site :=
    if site.path.length = 2 && site.endsWithKeys ["sdk", "version"] then whole .registrySemver
    else none
  changelog c := "Updated the SDK pinned in global.json to " ++ c.sdk.render

-- The frameworks that a project targets.
def targetFramework : DocumentRules where
  info := { name := "target-framework", patterns := projectPatterns, priority := 20 }
  select _ site :=
    match site.leaf? with
    | some (.element "TargetFramework") | some (.element "TargetFrameworks") =>
      whole .frameworkMoniker
    | _ => none
  changelog c := "Target framework net" ++ c.render ++ " added to projects"

-- The runtime identifiers of a project. Before 8.0 the ones that name a version of an operating
-- system were understood, so they stay.
def runtimeIdentifier : DocumentRules where
  info := { name := "runtime-identifier", patterns := projectPatterns, priority := 30 }
  appliesTo c := 8 ≤ c.major
  select _ site :=
    match site.leaf? with
    | some (.element "RuntimeIdentifier") | some (.element "RuntimeIdentifiers") =>
      whole .runtimeIdentifier
    | _ => none
  changelog _ := "Replaced version-specific runtime identifiers with portable ones"

-- A value under two keys, if the mapping around the outer one has a field that starts as given.
def underStep (keys : List String) (field start : String) (site : Site) : Option Selection :=
  if site.endsWithKeys keys then
    match site.ancestorField? 1 field with
    | some value => if start.toList.isPrefixOf value.toList then whole .floatingChannel else none
    | none => none
  else
    none

-- The versions that a setup step of a workflow installs.
def githubActions : DocumentRules where
  info :=
    { name := "github-actions"
      patterns := [".github/workflows/*.yml", ".github/workflows/*.yaml"]
      priority := 40 }
  select _ := underStep ["with", "dotnet-version"] "uses" "actions/setup-dotnet@"
  changelog c := "GitHub Actions workflows install the " ++ c.render ++ " SDK"

-- The versions that a task of a pipeline installs.
def azurePipelines : DocumentRules where
  info :=
    { name := "azure-pipelines"
      patterns :=
        ["**/azure-pipelines*.yml", "**/azure-pipelines*.yaml", ".azure/**/*.yml",
         ".pipelines/**/*.yml"]
      priority := 50 }
  select _ := underStep ["inputs", "version"] "task" "UseDotNet@"
  changelog c := "Azure Pipelines install the " ++ c.render ++ " SDK"

-- The images that containers are built from.
def dockerfile : DocumentRules where
  info :=
    { name := "dockerfile"
      patterns := ["**/Dockerfile", "**/*.Dockerfile", "**/Dockerfile.*", "**/*.dockerfile"]
      priority := 60 }
  formatOf _ := .dockerfile
  select _ site :=
    match site.leaf? with
    | some (.element "FROM") =>
      if Text.occursIn "/dotnet/".toList site.value.toList then whole .imageTag else none
    | _ => none
  pinsDigests := true
  changelog c := "Container images use .NET " ++ c.render

-- Settings of the tools for Lambda, next to a project.
def toolsDefaults : String := "aws-lambda-tools-defaults.json"

-- Managed runtimes: inside of templates, and at the top of the tools' settings, where the framework
-- stands, too.
def awsLambda : DocumentRules where
  info :=
    { name := "aws-lambda"
      patterns :=
        ["**/aws-lambda-tools-defaults.json", "**/serverless.template", "**/template.yaml",
         "**/template.yml", "**/serverless.yml", "**/serverless.yaml"]
      priority := 70 }
  select path site :=
    let isTop := site.path.length = 1
    match site.leaf? with
    | some (.key "Runtime") | some (.key "runtime") => if isTop then none else whole .managedRuntime
    | some (.key "function-runtime") => if isTop then whole .managedRuntime else none
    | some (.key "framework") =>
      if isTop && toolsDefaults.toList.isSuffixOf path.toList then whole .frameworkMoniker
      else none
    | _ => none
  changelog c := "AWS Lambda functions run on dotnet" ++ toString c.major

-- Whether a value of an editor's settings is a path.
def isPath (site : Site) : Bool :=
  match site.leaf? with
  | some (.key name) => name == "program" || name == "cwd"
  | some (.index _) => (site.ancestor? 1).map (·.segment) == some (.key "args")
  | _ => false

-- The folders of build output in the settings of an editor.
def vscode : DocumentRules where
  info := { name := "vscode", patterns := [".vscode/launch.json", ".vscode/tasks.json"], priority := 80 }
  formatOf _ := .json
  select _ site :=
    if isPath site then
      (MonikerPath.find? site.value).map fun range => { kind := .frameworkMoniker, range := some range }
    else
      none
  changelog c := "VS Code launch and task paths point at net" ++ c.render ++ " output"

-- The categories whose documents are revised.
def documentRules : List DocumentRules :=
  [globalJson, targetFramework, runtimeIdentifier, githubActions, azurePipelines, dockerfile,
   awsLambda, vscode]

-- The category of packages.
def packageVersions : UpgraderInfo :=
  { name := "package-versions", patterns := projectPatterns, priority := 90 }

-- All upgraders in the order in which they run.
def all : List Upgrader :=
  inOrder (documentRules.map documents ++ [packages packageVersions])

-- The names of all upgraders.
def names : List String :=
  all.map (·.info.name)

-- The upgrader of a name.
def ofName? (name : String) : Option Upgrader :=
  all.find? (·.info.name == name)

end Repin.Upgrader
