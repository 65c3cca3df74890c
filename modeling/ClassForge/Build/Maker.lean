import ClassForge.Analysis.Analyser
import ClassForge.Bundle.Target
import ClassForge.Catalog.Load
import ClassForge.Metadata.Basic
import ClassForge.Project.Resource
import ClassForge.Report.Event

/-!
# Makers

A maker builds the applications of one target. A make begins by erasing output that does not hold any
more, lets the analyser grow the set of classes, and then writes those applications whose classes or
local modules have changed.
-/

namespace ClassForge

/-- Why a make stops. -/
inductive MakeError where
  | output (cause : OutputError)
  | store (cause : StoreError)
  | catalog (cause : CatalogError)

def MakeError.message : MakeError → String
  | output e => e.message
  | store e => e.message
  | catalog .tooManyForms => "capacity overflow"

structure MakeOutcome where
  success : Bool
  hadWarnings : Bool
  applicationsBuilt : List String := []
  markers : List Marker

instance : Json.Encode MakeOutcome := ⟨fun o => .object
  [("success", .bool o.success), ("hadWarnings", .bool o.hadWarnings),
    ("applicationsBuilt", Json.encode o.applicationsBuilt), ("markers", Json.encode o.markers)]⟩

structure Maker where
  target : Target
  analyser : Analyser
  applications : List Application
  libraries : Libraries
  locales : List String
  projectDir : Path
  noErase : Bool := false
  generated : NameSet := .empty
  moduleTimes : Table (Table UInt64) := .empty
  appClasses : Table NameSet := .empty

structure Making where
  files : FileTree
  maker : Maker
  events : List Event := []

abbrev MakeM := ExceptT MakeError (StateM Making)

namespace MakeM

def onFiles {ε α : Type} (a : FileM ε α) (wrap : ε → MakeError) : MakeM α := do
  let s ← get
  let (result, files) := a.run s.files
  set { s with files }
  match result with
  | .ok a => return a
  | .error e => throw (wrap e)

def emit (e : Event) : MakeM Unit := modify fun s => { s with events := s.events ++ [e] }

def update (f : Maker → Maker) : MakeM Unit := modify fun s => { s with maker := f s.maker }

end MakeM

namespace Maker

def new (target : Target) (applications : List Application) (libraries : Libraries)
    (locales : List String) (projectDir : Path) (noErase : Bool) : Maker where
  target
  analyser :=
    { target := target.name, outputDir := target.outputDir, minify := target.minify,
      environment := target.config.environment, libraries := libraries.versions }
  applications
  libraries
  locales
  projectDir
  noErase

def dependsOn (m : Maker) (classname : String) : Bool :=
  m.applications.any fun a => a.dependsOn (m.appClasses.getD a.name .empty) classname

/-! ## Beginning -/

def removeTree (dir : Path) : FileM OutputError Unit :=
  FileM.changing (fun t =>
    match t.removeDirectory dir with
    | .error .notFound => .ok t
    | result => result) (OutputError.mk dir)

def erase (m : Maker) : FileM OutputError Unit := do
  let out := m.target.outputDir
  for name in [Compilation.directory, Target.resourceDir] ++ m.applications.map (·.name) do
    removeTree (out.child name)
  let file := m.analyser.fingerprintPath
  FileM.changing (fun t =>
    match t.removeFile file with
    | .error .notFound => .ok t
    | result => result) (OutputError.mk file)

/-- Whether the output is erased before a make. -/
def mustErase (m : Maker) (t : FileTree) : Bool := m.analyser.isContextChanged t && !m.noErase

def requiredClasses (m : Maker) (known : List String) : List String :=
  m.applications.flatMap (·.requiredClasses known)

def begin (known : List String) : MakeM Bool := do
  let s ← get
  let erased := s.maker.mustErase s.files
  if erased then
    MakeM.onFiles s.maker.erase .output
    MakeM.update fun m => { m with analyser := m.analyser.reset, generated := .empty }
  MakeM.update fun m => { m with analyser := m.analyser.setRoots (m.requiredClasses known) }
  return erased

/-! ## Writing applications -/

def localeData (locale : String) : Datum :=
  let language := locale.toList.takeWhile fun c => c ≠ '_' && c ≠ '-'
  .ofJson (.object [("language", .string (String.ofList language)), ("locale", .string locale)])

def equip (m : Maker) (resources : ResourceIndex) (catalogs : Table Catalog) (p : Package) :
    Package :=
  let infos := p.classes.filterMap m.analyser.classes.get?
  let messages := sortedNames (infos.flatMap (·.translations))
  { p with
    assets := resources.select (infos.flatMap (·.assets))
    translations := p.translations.union (catalogs.map fun _ c =>
      (c.select messages).map fun _ v => .ofJson v) }

def localize (m : Maker) (parts : List Part) (p : Package) : Package :=
  match parts.find? (·.name = Part.bootName) with
  | some boot =>
    if boot.packages.contains p.id then
      { p with locales := m.locales.foldl (fun t l => t.insert l (localeData l)) p.locales }
    else p
  | none => p

def bundleOf (m : Maker) (resources : ResourceIndex) (catalogs : Table Catalog) (a : Application)
    (order : List String) : Bundle :=
  let (parts, packages) := Part.partition order a.parts
  let packages := packages.map (m.equip resources catalogs)
  { application := a
    parts
    packages := packages.map (m.localize parts)
    environment := m.analyser.environment
    resources := Table.ofList ((packages.flatMap fun p => p.assets.toNames).filterMap fun id =>
      (resources.get? id).map fun path => (id, path))
    projectDir := m.projectDir }

/-- Whether an application is as it was written: none of its classes has been compiled since, and its
local modules have the same times. -/
def isUnchanged (m : Maker) (name : String) (order : List String) (recent : NameSet)
    (times : Table UInt64) : Bool :=
  m.generated.contains name && !order.any recent.contains && m.moduleTimes.get? name = some times

def makeApplication (known : List String) (resources : ResourceIndex) (catalogs : Table Catalog)
    (recent : NameSet) (a : Application) : MakeM Bool := do
  let s ← get
  let m := s.maker
  let order := m.analyser.loadOrder (a.requiredClasses known)
  let times := a.moduleTimes s.files m.projectDir
  MakeM.update fun m => { m with appClasses := m.appClasses.insert a.name (NameSet.ofNames order) }
  if m.isUnchanged a.name order recent times then return false
  MakeM.emit (.writingApplication a.name m.target.name)
  MakeM.onFiles (m.target.generate (m.bundleOf resources catalogs a order)) .output
  MakeM.update fun m =>
    { m with
      generated := m.generated.add a.name
      moduleTimes := m.moduleTimes.insert a.name times }
  MakeM.emit (.writtenApplication a.name m.target.name)
  return true

def makeApplications (known : List String) (resources : ResourceIndex) (catalogs : Table Catalog)
    (recent : NameSet) : List Application → MakeM (List String)
  | [] => return []
  | a :: rest => do
    let written ← makeApplication known resources catalogs recent a
    let names ← makeApplications known resources catalogs recent rest
    return if written then a.name :: names else names

def markers (m : Maker) (analysis : Analysis) : List Marker :=
  analysis.markers ++ (analysis.classes.filterMap m.analyser.classes.get?).flatMap (·.markers)

def finish (known : List String) (resources : ResourceIndex) (metadata : Metadata)
    (analysis : Analysis) : MakeM MakeOutcome := do
  MakeM.onFiles metadata.save .store
  let m := (← get).maker
  MakeM.onFiles m.analyser.saveFingerprint .output
  let markers := m.markers analysis
  let (recent, analyser) := m.analyser.takeRecent
  MakeM.update fun m => { m with analyser }
  let catalogs ← match Catalog.loadAll (← get).files m.libraries.toList m.locales with
    | .ok catalogs => pure catalogs
    | .error e => throw (.catalog e)
  let applicationsBuilt ← makeApplications known resources catalogs recent m.applications
  return {
    success := analysis.success && !markers.any Marker.isError
    hadWarnings := markers.any fun k => !k.isError
    applicationsBuilt
    markers }

end Maker

end ClassForge
