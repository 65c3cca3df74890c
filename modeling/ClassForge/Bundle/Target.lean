import ClassForge.Bundle.Package
import ClassForge.Compilation.Basic
import ClassForge.Files.Output
import ClassForge.Project.Config

/-!
# Targets

A target decides what an application looks like on disk. The source target lets the loader fetch the
file of every class; the build target puts the classes of a package into one file and copies the
resources.
-/

namespace ClassForge

open Json (Encode encode)

inductive TargetKind where
  | source
  | build
deriving DecidableEq

structure Target where
  kind : TargetKind
  config : TargetConfig

structure Bundle where
  application : Application
  parts : List Part
  packages : List Package
  environment : Table Datum
  resources : Table Path
  projectDir : Path

structure LoadEntry where
  uris : List String
  isEmpty : Bool
  package : Package

instance : Encode LoadEntry := ⟨fun e => .object (
  [("uris", encode e.uris), ("empty", encode e.isEmpty)] ++
    Json.fieldTable "locales" e.package.locales ++
    Json.fieldTable "translations" e.package.translations ++
    Json.fieldList "assets" e.package.assets.toNames)⟩

namespace Target

def kindOf? : String → Option TargetKind
  | "source" => some .source
  | "build" => some .build
  | _ => none

def ofConfig (config : TargetConfig) : Except UnknownName Target :=
  match kindOf? config.kind with
  | some kind => .ok { kind, config }
  | none => .error { kind := "target", name := config.kind }

def name (t : Target) : String :=
  match t.kind with
  | .source => "source"
  | .build => "build"

def outputDir (t : Target) : Path := t.config.outputPath

def minify (t : Target) : Bool := t.config.minify.getD (t.kind = .build)

/-- Whether class code is put into package files. -/
def embedsCode (t : Target) : Bool := t.kind = .build

def applicationDir (t : Target) (a : Application) : Path := t.outputDir.child a.name

/-! ## The loader -/

def resourceDir : String := "resource"

def loaderScript : String := "(function () \x7b
  var loader = qx.$$loader;
  var part = loader.parts[loader.boot];
  var uris = [];
  part.forEach(function (id) \x7b
    uris = uris.concat(loader.packages[id].uris);
  \x7d);
  function next() \x7b
    var uri = uris.shift();
    if (!uri) \x7b
      return;
    \x7d
    var script = document.createElement(\"script\");
    script.src = uri;
    script.onload = next;
    document.head.appendChild(script);
  \x7d
  next();
\x7d)();
"

def loaderConfig (b : Bundle) (packages : Table LoadEntry) (resources modules : Table String) :
    Json :=
  let a := b.application
  let parts := Table.ofList (b.parts.map fun p =>
    (p.name, Json.array (p.packages.map fun (n : Nat) => .int n)))
  .object (
    [("application", Json.string a.name), ("mainClass", .string a.mainClass)] ++
      Json.fieldOf? "theme" a.theme ++
      [("environment", encode b.environment), ("boot", .string Part.bootName),
        ("parts", encode parts), ("packages", encode packages), ("resources", encode resources)] ++
      Json.fieldTable "modules" modules)

def indexScript (config : Json) : String :=
  "var qx = window.qx || (window.qx = \x7b\x7d);\nqx.$$loader = " ++ config.pretty ++ ";\n" ++
    loaderScript

def indexPage (title : String) : String :=
  "<!DOCTYPE html>\n<html>\n<head>\n<meta charset=\"utf-8\">\n<title>" ++ title ++
    "</title>\n<script src=\"index.js\"></script>\n</head>\n<body></body>\n</html>\n"

def copyModules (dir : Path) (b : Bundle) : FileM OutputError (Table String) := do
  let copied ← b.application.localModules.entries.mapM fun (name, source) => do
    let file := "modules/" ++ name ++ ".js"
    Output.copy (b.projectDir.join source) (dir.child file)
    return (name, file)
  return Table.ofList copied

def writeApplication (dir : Path) (b : Bundle) (packages : List LoadEntry)
    (resources : Table String) : FileM OutputError Unit := do
  let modules ← copyModules dir b
  let packages := Table.ofList (packages.map fun e => (toString e.package.id, e))
  Output.write (dir.child "index.js") (indexScript (loaderConfig b packages resources modules))
  Output.write (dir.child "index.html") (indexPage b.application.pageTitle)

/-! ## The source target -/

def classUri (classname : String) : String :=
  "../" ++ Compilation.directory ++ "/" ++ "/".intercalate (Text.split '.' classname) ++ ".js"

def generateSource (t : Target) (b : Bundle) : FileM OutputError Unit :=
  let packages := b.packages.map fun p =>
    { uris := p.classes.map classUri, isEmpty := false, package := p }
  writeApplication (t.applicationDir b.application) b packages (b.resources.map fun _ p => p.text)

/-! ## The build target -/

def withoutMapComment (code : String) : String :=
  match Text.beforeLast "//# sourceMappingURL=".toList code.toList with
  | some code => String.ofList (Text.trimEnd code)
  | none => Text.trimmedEnd code

def packageCode (outputDir : Path) : List String → FileM OutputError String
  | [] => return ""
  | c :: rest => do
    let file := Compilation.artifactPath outputDir c "js"
    let code ← FileM.reading (·.read file) (OutputError.mk file)
    return withoutMapComment code ++ "\n" ++ (← packageCode outputDir rest)

def writePackage (t : Target) (dir : Path) (p : Package) : FileM OutputError LoadEntry := do
  if p.classes.isEmpty then return { uris := [], isEmpty := p.isEmpty true, package := p }
  let file := "package-" ++ toString p.id ++ ".js"
  let code ← packageCode t.outputDir p.classes
  Output.write (dir.child file) code
  return { uris := [file], isEmpty := p.isEmpty true, package := p }

def copyResources (t : Target) (resources : Table Path) : FileM OutputError (Table String) := do
  let copied ← resources.entries.mapM fun (id, source) => do
    Output.copy source ((t.outputDir.child resourceDir).child id)
    return (id, "../" ++ resourceDir ++ "/" ++ id)
  return Table.ofList copied

def generateBuild (t : Target) (b : Bundle) : FileM OutputError Unit := do
  let dir := t.applicationDir b.application
  let packages ← b.packages.mapM (t.writePackage dir)
  let resources ← t.copyResources b.resources
  writeApplication dir b packages resources

def generate (t : Target) (b : Bundle) : FileM OutputError Unit :=
  match t.kind with
  | .source => t.generateSource b
  | .build => t.generateBuild b

end Target

end ClassForge
