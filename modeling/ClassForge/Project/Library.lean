import ClassForge.Project.Config
import ClassForge.Project.Version

/-!
# Libraries

A library is a directory with a manifest. It provides the classes of a namespace, and resources and
translations for them; it may require other libraries in certain versions.
-/

namespace ClassForge

open Json (Encode Decode encode)

structure ManifestInfo where
  name : String
  version : String := "0.0.0"
deriving DecidableEq

structure ManifestProvides where
  namespaceName : String
  classDir : String := "source/class"
  resourceDir : String := "source/resource"
  translationDir : String := "source/translation"
  themeDir : Option String := none
  environmentChecks : Table String := .empty
deriving DecidableEq

structure Manifest where
  info : ManifestInfo
  provides : ManifestProvides
  requires : Table String := .empty
deriving DecidableEq

instance : Encode ManifestInfo := ⟨fun i => .object
  [("name", encode i.name), ("version", encode i.version)]⟩

instance : Decode ManifestInfo := ⟨Json.readFields do
  let name ← Json.required "name"
  let version ← Json.defaulted "version" "0.0.0"
  return { name, version }⟩

instance : Encode ManifestProvides := ⟨fun p => .object (
  [("namespace", encode p.namespaceName), ("class", encode p.classDir),
    ("resource", encode p.resourceDir), ("translation", encode p.translationDir)] ++
    Json.fieldOf? "theme" p.themeDir ++ Json.fieldTable "environmentChecks" p.environmentChecks)⟩

instance : Decode ManifestProvides := ⟨Json.readFields do
  let namespaceName ← Json.required "namespace"
  let classDir ← Json.defaulted "class" "source/class"
  let resourceDir ← Json.defaulted "resource" "source/resource"
  let translationDir ← Json.defaulted "translation" "source/translation"
  let themeDir ← Json.defaulted "theme" none
  let environmentChecks ← Json.defaulted "environmentChecks" .empty
  return { namespaceName, classDir, resourceDir, translationDir, themeDir, environmentChecks }⟩

instance : Encode Manifest := ⟨fun m => .object
  [("info", encode m.info), ("provides", encode m.provides), ("requires", encode m.requires)]⟩

instance : Decode Manifest := ⟨Json.readFields do
  let info ← Json.required "info"
  let provides ← Json.required "provides"
  let requires ← Json.defaulted "requires" .empty
  return { info, provides, requires }⟩

def Manifest.fileName : String := "Manifest.json"

structure Library where
  namespaceName : String
  name : String
  version : String
  rootDir : Path
  classPath : Path
  resourcePath : Path
  translationPath : Path
  themePath : Option Path
  requires : Table String
  environmentChecks : Table String
deriving DecidableEq

instance : Encode Library := ⟨fun l => .object
  [("namespace", encode l.namespaceName), ("name", encode l.name), ("version", encode l.version),
    ("rootDir", encode l.rootDir), ("classPath", encode l.classPath),
    ("resourcePath", encode l.resourcePath), ("translationPath", encode l.translationPath),
    ("themePath", encode l.themePath), ("requires", encode l.requires),
    ("environmentChecks", encode l.environmentChecks)]⟩

namespace Library

def ofManifest (dir : Path) (m : Manifest) : Library :=
  { namespaceName := m.provides.namespaceName, name := m.info.name, version := m.info.version,
    rootDir := dir, classPath := dir.child m.provides.classDir,
    resourcePath := dir.child m.provides.resourceDir,
    translationPath := dir.child m.provides.translationDir,
    themePath := m.provides.themeDir.map dir.child, requires := m.requires,
    environmentChecks := m.provides.environmentChecks }

def read (t : FileTree) (dir : Path) : Except ConfigError Library := do
  let file := dir.child Manifest.fileName
  let text ← (t.read file).mapError fun _ => .missingManifest dir
  let some j := Json.parse? text | throw (.malformedManifest file)
  let m : Manifest ← (Json.decode j).mapError fun _ => .malformedManifest file
  if m.provides.namespaceName.isEmpty then throw (.emptyNamespace file)
  return ofManifest dir m

def classFile (l : Library) (classname : String) : Path :=
  l.classPath.ofClass classname "js"

def owns (l : Library) (classname : String) : Bool :=
  classname = l.namespaceName || Text.startsWith (l.namespaceName ++ ".") classname

end Library

structure VersionMismatch where
  library : String
  requiredBy : String
  requirement : String
  actual : String
deriving DecidableEq

def VersionMismatch.message (m : VersionMismatch) : String :=
  "Library \"" ++ m.library ++ "\" version " ++ m.actual ++ " does not satisfy \"" ++ m.requirement ++
    "\" (required by \"" ++ m.requiredBy ++ "\")"

structure Libraries where
  table : Table Library := .empty

namespace Libraries

def toList (ls : Libraries) : List Library := ls.table.values

def add (ls : Libraries) (l : Library) : Except ConfigError Libraries :=
  if ls.table.contains l.namespaceName then .error (.duplicateNamespace l.namespaceName)
  else .ok { table := ls.table.insert l.namespaceName l }

def load (ls : Libraries) (t : FileTree) (dir : Path) : Except ConfigError (Library × Libraries) :=
  match ls.toList.find? fun l => l.rootDir.same dir with
  | some l => .ok (l, ls)
  | none => do
    let l ← Library.read t dir
    return (l, ← ls.add l)

def get (ls : Libraries) (name : String) : Except UnknownName Library :=
  match ls.table.get? name with
  | some l => .ok l
  | none => .error { kind := "library", name }

def ownerOf? (ls : Libraries) (classname : String) : Option Library :=
  (ls.toList.filter (·.owns classname)).foldl (fun best l =>
    match best with
    | some b => if b.namespaceName.utf8ByteSize ≤ l.namespaceName.utf8ByteSize then some l else best
    | none => some l) none

def findClassFile? (ls : Libraries) (t : FileTree) (classname : String) : Option Path := do
  let file := (← ls.ownerOf? classname).classFile classname
  if t.isFile file then some file else none

def versions (ls : Libraries) : Table String := ls.table.map fun _ l => l.version

def environmentChecks (ls : Libraries) : Table String :=
  ls.toList.foldl (fun checks l => checks.union l.environmentChecks) .empty

def requirements (ls : Libraries) : List (Library × String × String) :=
  ls.toList.flatMap fun l => l.requires.entries.map fun (name, range) => (l, name, range)

def mismatches (ls : Libraries) : Except ConfigError (List VersionMismatch) := do
  let found ← ls.requirements.mapM fun (l, required, requirement) =>
    match ls.toList.find? fun o => o.name = required || o.namespaceName = required with
    | none => .error (.unresolvedLibrary required l.namespaceName)
    | some o => .ok (if satisfies o.version requirement then [] else
        [{ library := required, requiredBy := l.namespaceName, requirement, actual := o.version }])
  return found.flatten

end Libraries

end ClassForge
