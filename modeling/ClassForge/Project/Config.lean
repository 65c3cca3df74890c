import ClassForge.Json.Reader
import ClassForge.Project.Application
import ClassForge.Report.UnknownName

/-!
# Configurations

What a project asks of the compiler: its targets, applications, libraries and settings. Relative
paths count from the directory of the project.
-/

namespace ClassForge

open Json (Encode Decode encode)

/-- Why a configuration cannot be used. -/
inductive ConfigError where
  | noTargets
  | missingOutputPath (target : String)
  | duplicateDefault (first second : String)
  | duplicateApplication (name : String)
  | missingClass (application : String)
  | unknown (what : UnknownName)
  | missingManifest (directory : Path)
  | malformedManifest (file : Path)
  | emptyNamespace (file : Path)
  | unresolvedLibrary (library requiredBy : String)
  | duplicateNamespace (name : String)
  | unreadable (file : Path)
deriving DecidableEq

/-- The wording of a configuration error. Where the reason is that a text is no JSON, or not of the
form that is needed, the message ends before it. -/
def ConfigError.message : ConfigError → String
  | noTargets => "No targets are configured"
  | missingOutputPath t => "Target \"" ++ t ++ "\" has no output path"
  | duplicateDefault a b =>
    "Both \"" ++ a ++ "\" and \"" ++ b ++ "\" are marked as the default application"
  | duplicateApplication n => "Application \"" ++ n ++ "\" is defined more than once"
  | missingClass a => "Application \"" ++ a ++ "\" has no class"
  | unknown what => what.message
  | missingManifest d => "Cannot find Manifest.json in " ++ d.quoted
  | malformedManifest f => "Invalid manifest " ++ f.quoted
  | emptyNamespace f => "Invalid manifest " ++ f.quoted ++ ": provides.namespace is empty"
  | unresolvedLibrary l r =>
    "Library \"" ++ l ++ "\" is required by \"" ++ r ++ "\" but was not loaded"
  | duplicateNamespace n => "Two libraries provide the namespace \"" ++ n ++ "\""
  | unreadable f => "Cannot read configuration " ++ f.quoted

structure TargetConfig where
  kind : String
  outputPath : Path
  environment : Table Datum := .empty
  /-- Whether code is made small; by default the kind of the target decides. -/
  minify : Option Bool := none
deriving DecidableEq

instance : Encode TargetConfig := ⟨fun t => .object
  [("type", encode t.kind), ("outputPath", encode t.outputPath),
    ("environment", encode t.environment), ("minify", encode t.minify)]⟩

instance : Decode TargetConfig := ⟨Json.readFields do
  let kind ← Json.required "type"
  let outputPath ← Json.required "outputPath"
  let environment ← Json.defaulted "environment" .empty
  let minify ← Json.defaulted "minify" none
  return { kind, outputPath, environment, minify }⟩

structure ServerConfig where
  command : List String
deriving DecidableEq

instance : Encode ServerConfig := ⟨fun s => .object [("command", encode s.command)]⟩

instance : Decode ServerConfig := ⟨Json.readFields do
  let command ← Json.required "command"
  return { command }⟩

structure Config where
  targets : List TargetConfig := []
  target : Option String := none
  applications : List Application := []
  libraries : List Path := [⟨"."⟩]
  environment : Table Datum := .empty
  locales : List String := ["en"]
  metaDir : Path := ⟨"compiled/meta"⟩
  transformer : String := "oxc"
  workers : Option UInt64 := none
  watch : Bool := false
  failOnWarnings : Bool := false
  strictVersions : Bool := false
  /-- Whether output stays when the build context has changed. -/
  noErase : Bool := false
  server : Option ServerConfig := none
  projectDir : Path := ⟨""⟩
deriving DecidableEq

instance : Encode Config := ⟨fun c => .object
  [("targets", encode c.targets), ("target", encode c.target),
    ("applications", encode c.applications), ("libraries", encode c.libraries),
    ("environment", encode c.environment), ("locales", encode c.locales),
    ("metaDir", encode c.metaDir), ("transformer", encode c.transformer),
    ("workers", encode c.workers), ("watch", encode c.watch),
    ("failOnWarnings", encode c.failOnWarnings), ("strictVersions", encode c.strictVersions),
    ("noErase", encode c.noErase), ("server", encode c.server)]⟩

instance : Decode Config := ⟨Json.readFields do
  let targets ← Json.defaulted "targets" []
  let target ← Json.defaulted "target" none
  let applications ← Json.defaulted "applications" []
  let libraries ← Json.defaulted "libraries" [⟨"."⟩]
  let environment ← Json.defaulted "environment" .empty
  let locales ← Json.defaulted "locales" ["en"]
  let metaDir ← Json.defaulted "metaDir" ⟨"compiled/meta"⟩
  let transformer ← Json.defaulted "transformer" "oxc"
  let workers ← Json.defaulted "workers" none
  let watch ← Json.defaulted "watch" false
  let failOnWarnings ← Json.defaulted "failOnWarnings" false
  let strictVersions ← Json.defaulted "strictVersions" false
  let noErase ← Json.defaulted "noErase" false
  let server ← Json.defaulted "server" none
  return { targets, target, applications, libraries, environment, locales, metaDir, transformer,
           workers, watch, failOnWarnings, strictVersions, noErase, server }⟩

namespace Config

def fileName : String := "compile.json"

def locatedAt (c : Config) (base : Path) : Config :=
  let place (t : TargetConfig) : TargetConfig :=
    if t.outputPath.text.isEmpty then t else { t with outputPath := base.join t.outputPath }
  { c with
    projectDir := base
    libraries := c.libraries.map base.join
    targets := c.targets.map place
    metaDir := base.join c.metaDir }

/-- Checks applications one after another; `names` are the names so far, and `default?` is the
default application so far. -/
def checkApplications :
    (names : List String) → (default? : Option String) → List Application → Except ConfigError Unit
  | _, _, [] => .ok ()
  | names, default?, a :: rest =>
    if a.mainClass.isEmpty then .error (.missingClass a.name)
    else if names.contains a.name then .error (.duplicateApplication a.name)
    else if a.isDefault then
      match default? with
      | some first => .error (.duplicateDefault first a.name)
      | none => checkApplications (a.name :: names) (some a.name) rest
    else checkApplications (a.name :: names) default? rest

def validate (c : Config) : Except ConfigError Unit := do
  if c.targets.isEmpty then throw .noTargets
  match c.targets.find? fun t => t.outputPath.text.isEmpty with
  | some t => throw (.missingOutputPath t.kind)
  | none => checkApplications [] none c.applications

/-- Reads a configuration for a project from JSON; `file` is named if that fails. -/
def read (j : Json) (file base : Path) : Except ConfigError Config :=
  match (Json.decode j : Except Json.DecodeError Config) with
  | .error _ => .error (.unreadable file)
  | .ok c => do
    let c := c.locatedAt base
    c.validate
    return c

def ofJson (j : Json) (projectDir : Path) : Except ConfigError Config :=
  read j (projectDir.child fileName) projectDir

def load (t : FileTree) (file : Path) : Except ConfigError Config :=
  match t.read file with
  | .error _ => .error (.unreadable file)
  | .ok text =>
    match Json.parse? text with
    | none => .error (.unreadable file)
    | some j => read j file (file.parent?.getD ⟨"."⟩)

def selectedTargets (c : Config) : List TargetConfig :=
  (c.targets.filter fun t => c.target.all (· = t.kind)).map fun t =>
    { t with environment := c.environment.union t.environment }

end Config

end ClassForge
