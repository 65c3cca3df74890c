import ClassForge.Build.Maker
import ClassForge.Build.Slot
import ClassForge.Build.Wave
import ClassForge.Compilation.Backend
import ClassForge.Compilation.Cache
import ClassForge.Project.Discovery

/-!
# Incremental builds

A build has several makers, which share the metadata, the backend and the cache. Requests to compile
a class and requests to make overlap: each is a thread with its own progress, and each takes one step
at a time.

A request to compile asks the cache, waits for the compile it gets, and asks again if the class has
changed meanwhile. A request to make asks for the slot of the maker, waits for the run it gets, and,
if it began that run, starts another one if something has changed meanwhile. Compiles and runs are
shared by all who wait for them, and are told apart by numbers.
-/

namespace ClassForge

inductive CompileProgress where
  | asking (force : Bool)
  | waiting (job : Nat)
  | done (outcome : CompileOutcome)

structure CompileThread where
  maker : Nat
  classname : String
  progress : CompileProgress

inductive JobProgress where
  | fresh
  | begun (request : CompileRequest)
  /-- It has ended; `again` says whether the class has changed meanwhile. -/
  | done (outcome : CompileOutcome) (again : Bool)

structure CompileJob where
  maker : Nat
  classname : String
  force : Bool
  progress : JobProgress := .fresh

abbrev MakeResult := Except String MakeOutcome

inductive RunProgress where
  | fresh
  | growing (known : List String) (resources : ResourceIndex) (expansion : Expansion)
      (threads : List CompileThread)
  | done (result : MakeResult)

structure MakeRun where
  maker : Nat
  progress : RunProgress := .fresh

inductive MakeProgress where
  | asking
  /-- It waits for a run; `started` says whether it began it. -/
  | waiting (run : Nat) (started : Bool)
  | done (result : MakeResult)

/-- A request to make; `dirty` says that something has changed. -/
structure MakeThread where
  maker : Nat
  dirty : Bool := false
  progress : MakeProgress := .asking

inductive Task where
  | drive (job : Nat)
  | compiles (threads : List CompileThread)
  | makes (threads : List MakeThread)

structure Build where
  files : FileTree
  backend : Backend
  metadata : Metadata
  version : UInt64 := 1
  pushed : UInt64 := 0
  classes : Table Path
  cache : Cache := {}
  makers : List Maker
  events : List Event := []
  /-- Whether makers run by themselves when a class they need has been compiled. -/
  autoMake : Bool := false
  wave : Wave := {}
  slots : Nat → MakeSlot := fun _ => {}
  jobs : List CompileJob := []
  runs : List MakeRun := []
  spawned : List Task := []

namespace Build

def emit (b : Build) (e : Event) : Build := { b with events := b.events ++ [e] }

def updateMaker (b : Build) (i : Nat) (f : Maker → Maker) : Build :=
  { b with makers := b.makers.modify i f }

def outputDir (b : Build) (i : Nat) : Path :=
  ((b.makers[i]?).map (·.target.outputDir)).getD ⟨""⟩

def dependents (b : Build) (classname : String) : List Nat :=
  (List.range b.makers.length).filter fun i => (b.makers[i]?).any (·.dependsOn classname)

def setSlot (b : Build) (i : Nat) (s : MakeSlot) : Build :=
  { b with slots := fun k => if k = i then s else b.slots k }

def compileThread (maker : Nat) (force : Bool) (classname : String) : CompileThread :=
  { maker, classname, progress := .asking force }

def makeAll (b : Build) : Task := .makes ((List.range b.makers.length).map fun maker => { maker })

/-! ## The metadata of the backend -/

def missingVersion? (b : Build) : Option UInt64 :=
  if b.pushed = b.version then none else some b.version

def install (b : Build) (version : UInt64) (snapshot : Snapshot) : Except PoolError Unit × Build :=
  let ((result, backend), files) := (b.backend.install snapshot).run b.files
  let b := { b with backend, files }
  match result with
  | .ok () => (.ok (), { b with pushed := version })
  | .error e => (.error e, b)

def ensureSnapshot (b : Build) : Except PoolError Unit × Build :=
  match b.missingVersion? with
  | none => (.ok (), b)
  | some version => b.install version b.metadata.snapshot

end Build

end ClassForge
