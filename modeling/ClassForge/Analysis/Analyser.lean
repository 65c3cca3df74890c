import ClassForge.Analysis.Expansion
import ClassForge.Analysis.Fingerprint
import ClassForge.Analysis.LoadOrder
import ClassForge.Files.Output
import ClassForge.Json.Reader

/-!
# Analysers

An analyser belongs to the output of one target. It knows the classes its applications begin with,
all classes these have grown to, and what each of them needs for loading.
-/

namespace ClassForge

structure Analyser where
  target : String
  outputDir : Path
  minify : Bool := false
  environment : Table Datum := .empty
  libraries : Table String := .empty
  roots : NameSet := .empty
  classes : Table BuildInfo := .empty
  loadNeeds : Table NameSet := .empty
  recent : NameSet := .empty

structure Analysis where
  classes : List String
  failures : List CompileFailure
  markers : List Marker

/-- Whether every class could be compiled. -/
def Analysis.success (a : Analysis) : Bool := a.failures.isEmpty

namespace Analyser

def addRoots (a : Analyser) (classes : List String) : Analyser :=
  { a with roots := classes.foldl NameSet.add a.roots }

def setRoots (a : Analyser) (classes : List String) : Analyser :=
  { a with roots := NameSet.ofNames classes }

def noteCompiled (a : Analyser) (info : BuildInfo) : Analyser :=
  { a with
    recent := a.recent.add info.classname
    classes := a.classes.insert info.classname info }

/-- The classes compiled since they were taken last. -/
def takeRecent (a : Analyser) : NameSet × Analyser := (a.recent, { a with recent := .empty })

def loadNeedsOf (a : Analyser) (classname : String) : NameSet := a.loadNeeds.getD classname .empty

def loadOrder (a : Analyser) (roots : List String) : List String :=
  LoadOrder.ofRoots a.classes a.loadNeeds roots

/-! ## Growing -/

def begin (a : Analyser) (known : String → Bool) : Expansion := .start known a.roots.toNames

def keep (a : Analyser) (results : List (String × CompileOutcome)) : Analyser :=
  { a with
    classes := results.foldl (fun t (c, o) =>
      match o with
      | .ok info => t.insert c info
      | .error _ => t) a.classes }

def conclude (a : Analyser) (e : Expansion) : Analysis × Analyser :=
  let classes := a.classes.filter fun c _ => e.seen.contains c
  ({ classes := classes.keys, failures := e.failures, markers := e.markers },
    { a with classes, loadNeeds := LoadOrder.allNeeds classes })

def resolve (a : Analyser) (service : Table CompileOutcome) :
    Analysis × List String × Analyser :=
  let (e, results) := Expansion.grow service (a.begin service.contains)
  let (analysis, a) := (a.keep results).conclude e
  (analysis, results.map Prod.fst, a)

/-! ## The fingerprint -/

def fingerprint (a : Analyser) : Fingerprint where
  libraries := a.libraries
  environmentHash := Fingerprint.hashOf a.environment
  compilerVersion := Fingerprint.thisVersion
  classes := a.classes.keys

def fingerprintPath (a : Analyser) : Path := a.outputDir.child Fingerprint.fileName

def savedFingerprint? (a : Analyser) (t : FileTree) : Option Fingerprint := do
  let text ← (t.read a.fingerprintPath).toOption
  (Json.decode (← Json.parse? text)).toOption

def isContextChanged (a : Analyser) (t : FileTree) : Bool :=
  match a.savedFingerprint? t with
  | some last => !last.sameContext a.fingerprint
  | none => true

def saveFingerprint (a : Analyser) : FileM OutputError Unit := do
  FileM.changing (·.createDirectories a.outputDir) (OutputError.mk a.outputDir)
  FileM.changing (·.write a.fingerprintPath (Json.encode a.fingerprint).pretty)
    (OutputError.mk a.fingerprintPath)

def reset (a : Analyser) : Analyser :=
  { a with classes := .empty, loadNeeds := .empty, recent := .empty }

end Analyser

end ClassForge
