import ClassForge.Build.Schedule

/-!
# Runs

A run loads the libraries, brings the metadata in line with the classes that are there, and makes
every selected target once.
-/

namespace ClassForge

open Json (Encode Decode encode)

inductive RunError where
  | config (cause : ConfigError)
  | versions (mismatches : List VersionMismatch)
  | discovery (cause : DiscoveryError)
  | store (cause : StoreError)
  | remote (message : String)
  /-- That program cannot be started. -/
  | io (cause : FileError)

def RunError.message : RunError → String
  | config e => e.message
  | versions l => toString l.length ++ " library version requirement(s) failed"
  | discovery e => e.message
  | store e => e.message
  | remote m => "Compiler server error: " ++ m
  | io e => "I/O error: " ++ e.message

structure RunOutcome where
  success : Bool := true
  hadWarnings : Bool := false
  applicationsBuilt : List String := []
  markers : List Marker := []
deriving DecidableEq

instance : Encode RunOutcome := ⟨fun o => .object
  [("success", encode o.success), ("hadWarnings", encode o.hadWarnings),
    ("applicationsBuilt", encode o.applicationsBuilt), ("markers", encode o.markers)]⟩

instance : Decode RunOutcome := ⟨Json.readFields do
  let success ← Json.required "success"
  let hadWarnings ← Json.required "hadWarnings"
  let applicationsBuilt ← Json.required "applicationsBuilt"
  let markers ← Json.required "markers"
  return { success, hadWarnings, applicationsBuilt, markers }⟩

namespace RunOutcome

def add (o : RunOutcome) : MakeResult → RunOutcome
  | .error _ => { o with success := false }
  | .ok m =>
    { success := o.success && m.success
      hadWarnings := o.hadWarnings || m.hadWarnings
      applicationsBuilt := o.applicationsBuilt ++ m.applicationsBuilt
      markers := o.markers ++ m.markers }

/-- What came of several makes; warnings may count as a failure. -/
def ofResults (results : List MakeResult) (failOnWarnings : Bool) : RunOutcome :=
  let o := results.foldl add {}
  { o with success := o.success && !(failOnWarnings && o.hadWarnings) }

end RunOutcome

namespace Run

variable {α : Type}

def check {ε : Type} (result : Except ε α) (wrap : ε → RunError) : FileM RunError α :=
  match result with
  | .ok a => return a
  | .error e => throw (wrap e)

def loadAll (t : FileTree) : Libraries → List Path → Except ConfigError Libraries
  | ls, [] => .ok ls
  | ls, dir :: rest => do
    let (_, ls) ← ls.load t dir
    loadAll t ls rest

def openLibraries (c : Config) : FileM RunError Libraries := do
  let ls ← check (loadAll (← get) {} c.libraries) .config
  let mismatches ← check ls.mismatches .config
  if c.strictVersions && !mismatches.isEmpty then throw (.versions mismatches)
  return ls

def addRoots (t : FileTree) : Discovery → List Library → Except DiscoveryError Discovery
  | d, [] => .ok d
  | d, l :: rest => do
    let d ← d.addRoot t l.classPath
    addRoots t d rest

def discover (ls : Libraries) (skipMissing : Bool) : FileM RunError (Table Path) := do
  let t ← get
  let present := ls.toList.filter fun l => !skipMissing || t.isDirectory l.classPath
  let d ← check (do (← addRoots t {} present).start t) .discovery
  return d.known

def dropStale (m : Metadata) (t : FileTree) (classes : Table Path) : Metadata × FileTree :=
  let stale := (m.classnames.filter fun c => !classes.contains c).filterMap m.record?
  stale.foldl (fun (m, t) r => (m.removeFile ⟨r.sourceFilename⟩ t).2) (m, t)

def syncMetadata (m : Metadata) (classes : Table Path) : FileM RunError Metadata := do
  let (m, t) := dropStale m (← get) classes
  let (_, m) := m.addFiles t (classes.entries.map fun (c, p) => (some c, p)) false
  let (result, m, t) := m.reconcile t
  set t
  let _ ← check result .store
  let m := m.takeWarnings.2
  let (saved, t) := m.save.run t
  set t
  check saved .store
  return m

def makersOf (c : Config) (ls : Libraries) : Except ConfigError (List Maker) :=
  c.selectedTargets.mapM fun settings => do
    let target ← (Target.ofConfig settings).mapError .unknown
    return Maker.new target c.applications ls c.locales c.projectDir c.noErase

def setUp (c : Config) (metadata : FileTree → Except StoreError Metadata) (skipMissing : Bool)
    (backend : Except ConfigError Backend) : FileM RunError Build := do
  check c.validate .config
  let ls ← openLibraries c
  let m ← check (metadata (← get)) .store
  let classes ← discover ls skipMissing
  let m ← syncMetadata (m.addEnvironmentChecks ls.environmentChecks) classes
  let backend ← check backend .config
  let makers ← check (makersOf c ls) .config
  return { files := ← get, backend, metadata := m, classes, makers }

def backendOf (c : Config) : Except ConfigError Backend := do
  let transformer ← (Transformer.ofName Transformer.known c.transformer).mapError .unknown
  let engine := match c.workers with
    | some 0 => Engine.inline {}
    | some n => .pooled (.ofSize n.toNat)
    | none => .pooled (.ofSize 1)
  return { transformer, engine }

def resultsOf : Task → List MakeResult
  | .makes threads => threads.filterMap (·.result?)
  | _ => []

def here (c : Config) : StateM FileTree (Except RunError RunOutcome × List Event) := do
  let metadata (t : FileTree) := Metadata.load { rootDir := c.metaDir } t
  match ← (setUp c metadata true (backendOf c)).run with
  | .error e => return (.error e, [])
  | .ok build =>
    let (build, task) := build.perform build.makeAll
    set build.files
    return (.ok (.ofResults (resultsOf task) c.failOnWarnings), build.events)

end Run

end ClassForge
