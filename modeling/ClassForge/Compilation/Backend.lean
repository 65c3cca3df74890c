import ClassForge.Compilation.Pool

/-!
# Where classes are compiled

Either at once, or by the workers of a pool. Both compile against the snapshot that was installed
last.
-/

namespace ClassForge

inductive Engine where
  | inline (snapshot : Snapshot)
  | pooled (pool : Pool)

structure Backend where
  transformer : Transformer
  engine : Engine
  /-- Whether a compile gives way to other requests before it begins. -/
  pauses : Bool := false

namespace Backend

def install (b : Backend) (snapshot : Snapshot) : StateM FileTree (Except PoolError Unit × Backend) := do
  match b.engine with
  | .inline _ => return (.ok (), { b with engine := .inline snapshot })
  | .pooled pool =>
    match ← pool.wait b.transformer with
    | (.error e, pool) => return (.error e, { b with engine := .pooled pool })
    | (.ok (), pool) =>
      let text := Json.string (Json.encode snapshot).render
      let (result, pool) ← pool.callAll b.transformer Worker.setSnapshot [.ofJson text]
      return (result.map fun _ => (), { b with engine := .pooled pool })

def compileInline (transformer : Transformer) (snapshot : Snapshot) (r : CompileRequest) :
    StateM FileTree CompileOutcome := do
  match ← (Compilation.compile r snapshot.resolver transformer).run with
  | .ok info => return .ok info
  | .error (.crashed m) => return .error ⟨r.classname, "compile task failed: " ++ m⟩
  | .error e => return .error ⟨r.classname, e.message⟩

/-- What the answer of a worker says about a class. -/
def outcomeOf (r : CompileRequest) : Except PoolError Datum → CompileOutcome
  | .error (.method _ _ m) => .error ⟨r.classname, m⟩
  | .error e => .error ⟨r.classname, e.message⟩
  | .ok answer => (Json.decode answer.json).mapError fun e => ⟨r.classname, e.message⟩

def compile (b : Backend) (r : CompileRequest) : StateM FileTree (CompileOutcome × Backend) := do
  match b.engine with
  | .inline snapshot => return (← compileInline b.transformer snapshot r, b)
  | .pooled pool =>
    let (answer, pool) ←
      pool.call b.transformer Worker.compileClass [.ofJson (Json.encode r)]
    return (outcomeOf r answer, { b with engine := .pooled pool })

end Backend

end ClassForge
