import ClassForge.Build.Basic
import ClassForge.Metadata.Reconcile

/-!
# The steps of a build

Each step takes one thread, compile or run a bit further.
-/

namespace ClassForge

namespace Build

/-! ## Compiling -/

def finishJob (b : Build) (j : Nat) (job : CompileJob) (outcome : CompileOutcome) : Build :=
  let makers := if b.autoMake then b.dependents job.classname else []
  let (drained, wave) := b.wave.finish makers
  let remake := Task.makes (drained.map fun maker => { maker, dirty := true })
  let spawned := if drained.isEmpty then b.spawned else b.spawned ++ [remake]
  let (again, cache) := b.cache.finish (b.outputDir job.maker) job.classname outcome
  { b with
    wave, spawned, cache
    jobs := b.jobs.set j { job with progress := .done outcome again } }

def performJob (b : Build) (j : Nat) (job : CompileJob) (m : Maker) (r : CompileRequest) : Build :=
  let ((outcome, backend), files) := (b.backend.compile r).run b.files
  let b := { b with backend, files }
  match outcome with
  | .error _ => b.finishJob j job outcome
  | .ok info =>
    let b := b.updateMaker job.maker fun m => { m with analyser := m.analyser.noteCompiled info }
    (b.emit (.compiledClass job.classname m.analyser.target true)).finishJob j job outcome

/-- Begins a compile. A class that is up to date needs none, unless it is forced. -/
def beginJob (b : Build) (j : Nat) (job : CompileJob) (m : Maker) : Build :=
  let classname := job.classname
  let target := m.analyser.target
  match b.classes.get? classname with
  | none => b.finishJob j job (.error ⟨classname, "no source file for class"⟩)
  | some sourcePath =>
    let outputDir := m.analyser.outputDir
    match if job.force then none
      else Compilation.reusable? b.files outputDir classname sourcePath with
    | some info => (b.emit (.compiledClass classname target false)).finishJob j job (.ok info)
    | none =>
      match (b.emit (.compilingClass classname target)).ensureSnapshot with
      | (.error e, b) => b.finishJob j job (.error ⟨classname, e.message⟩)
      | (.ok (), b) =>
        let r := { classname, sourcePath, outputDir, minify := m.analyser.minify }
        if b.backend.pauses then
          { b with jobs := b.jobs.set j { job with progress := .begun r } }
        else b.performJob j job m r

def stepJob (b : Build) (j : Nat) : Build :=
  match b.jobs[j]? with
  | none => b
  | some job =>
    match b.makers[job.maker]?, job.progress with
    | some m, .fresh => b.beginJob j job m
    | some m, .begun r => b.performJob j job m r
    | _, _ => b

def jobResult? (b : Build) (j : Nat) : Option (CompileOutcome × Bool) :=
  match b.jobs[j]? with
  | some { progress := .done outcome again, .. } => some (outcome, again)
  | _ => none

def stepCompile (b : Build) (t : CompileThread) : Build × CompileThread :=
  match t.progress with
  | .asking force =>
    match b.cache.lookup (b.outputDir t.maker) t.classname force b.jobs.length with
    | (.ready info, cache) => ({ b with cache }, { t with progress := .done (.ok info) })
    | (.joined job, cache) => ({ b with cache }, { t with progress := .waiting job })
    | (.started job, cache) =>
      ({ b with
          cache
          wave := b.wave.start
          jobs := b.jobs ++ [{ maker := t.maker, classname := t.classname, force }]
          spawned := b.spawned ++ [.drive job] },
        { t with progress := .waiting job })
  | .waiting job =>
    match b.jobResult? job with
    | some (_, true) => (b, { t with progress := .asking false })
    | some (outcome, false) => (b, { t with progress := .done outcome })
    | none => (b, t)
  | .done _ => (b, t)

/-! ## Making -/

def finishRun (b : Build) (r : Nat) (run : MakeRun) (m : Maker) (result : Except MakeError MakeOutcome) :
    Build :=
  let success := match result with
    | .ok outcome => outcome.success
    | .error _ => false
  let b := b.emit (.makeFinished m.target.name success)
  { b with runs := b.runs.set r { run with progress := .done (result.mapError MakeError.message) } }

def withMaker {α : Type} (b : Build) (i : Nat) (m : Maker) (step : MakeM α) :
    Except MakeError α × Build :=
  let (result, s) := step.run { files := b.files, maker := m }
  (result, { b.updateMaker i (fun _ => s.maker) with files := s.files, events := b.events ++ s.events })

def concludeRun (b : Build) (r : Nat) (run : MakeRun) (m : Maker) (known : List String)
    (resources : ResourceIndex) (e : Expansion) : Build :=
  let (analysis, analyser) := m.analyser.conclude e
  let (result, b) := b.withMaker run.maker { m with analyser }
    (Maker.finish known resources b.metadata analysis)
  b.finishRun r run m result

/-- The next round of compiles, or the end if there is none. -/
def growRun (b : Build) (r : Nat) (run : MakeRun) (m : Maker) (known : List String)
    (resources : ResourceIndex) (e : Expansion) : Build :=
  if e.frontier.isEmpty then b.concludeRun r run m known resources e
  else
    let threads := e.frontier.map (compileThread run.maker false)
    { b with runs := b.runs.set r { run with progress := .growing known resources e threads } }

def beginRun (b : Build) (r : Nat) (run : MakeRun) (m : Maker) : Build :=
  let known := b.metadata.classnames
  let b := b.emit (.makeStarted m.target.name)
  match b.withMaker run.maker m (Maker.begin known) with
  | (.error e, b) => b.finishRun r run m (.error e)
  | (.ok erased, b) =>
    let b := if erased then { b with cache := b.cache.clear m.target.outputDir } else b
    let m := (b.makers[run.maker]?).getD m
    let resources := ResourceIndex.scan b.files m.libraries.toList
    b.growRun r run m known resources (m.analyser.begin b.classes.contains)

def results? : List CompileThread → Option (List (String × CompileOutcome))
  | [] => some []
  | t :: rest =>
    match t.progress, results? rest with
    | .done outcome, some others => some ((t.classname, outcome) :: others)
    | _, _ => none

def stepRun (b : Build) (r : Nat) : Build :=
  match b.runs[r]? with
  | none => b
  | some run =>
    match b.makers[run.maker]?, run.progress with
    | none, .fresh =>
      let result := .error ("no maker " ++ toString run.maker)
      { b with runs := b.runs.set r { run with progress := .done result } }
    | some m, .fresh => b.beginRun r run m
    | some m, .growing known resources e threads =>
      match results? threads with
      | none => b
      | some results =>
        let m := { m with analyser := m.analyser.keep results }
        (b.updateMaker run.maker fun _ => m).growRun r run m known resources
          (e.round b.classes.contains results)
    | _, _ => b

def runResult? (b : Build) (r : Nat) : Option MakeResult :=
  match b.runs[r]? with
  | some { progress := .done result, .. } => some result
  | _ => none

def stepMake (b : Build) (t : MakeThread) : Build × MakeThread :=
  match t.progress with
  | .asking =>
    let ((run, started), slot) := (b.slots t.maker).request t.dirty b.runs.length
    let b := b.setSlot t.maker slot
    (if started then { b with runs := b.runs ++ [{ maker := t.maker }] } else b,
      { t with progress := .waiting run started })
  | .waiting run started =>
    match b.runResult? run with
    | none => (b, t)
    | some result =>
      if started then
        let (again, slot) := (b.slots t.maker).release
        (b.setSlot t.maker slot, { t with progress := if again then .asking else .done result })
      else (b, { t with progress := .done result })
  | .done _ => (b, t)

/-! ## Changes of classes -/

def applyChange (b : Build) (change : ClassChange) : Build :=
  let (changed, metadata, files) : Bool × Metadata × FileTree :=
    match change.kind with
    | .removed =>
      match b.metadata.removeFile change.path b.files with
      | (result, metadata, files) => (result.toBool, metadata, files)
    | _ =>
      match b.metadata.addClassFile b.files (some change.classname) change.path false with
      | .ok (_, metadata) => (true, metadata, b.files)
      | .error _ => (false, b.metadata, b.files)
  let (metadata, files) :=
    if changed then
      match metadata.reconcile files with
      | (_, metadata, files) => (metadata, files)
    else (metadata, files)
  { b with metadata := metadata.takeWarnings.2, files }

def bumpVersion (b : Build) : Build := { b with version := b.version + 1 }

/-- Handles a change of a class. Gives what has to be done: a class that is there is compiled for the
makers that need it, and if one is gone they run again. -/
def handle (b : Build) (change : ClassChange) : Build × Task :=
  let c := change.classname
  let b := (b.applyChange change).bumpVersion
  let b := { b with cache := b.cache.markClassDirty c }
  let makers := b.dependents c
  let present (b : Build) (e : Event) : Build × Task :=
    ({ b with classes := b.classes.insert c change.path }.emit e,
      .compiles (makers.map fun i => compileThread i false c))
  match change.kind with
  | .added => present b (.classAdded c)
  | .changed => present b (.classChanged c)
  | .removed =>
    ({ b with classes := b.classes.erase c }.emit (.classRemoved c),
      .makes (if b.autoMake then makers.map fun maker => { maker, dirty := true } else []))

end Build

end ClassForge
