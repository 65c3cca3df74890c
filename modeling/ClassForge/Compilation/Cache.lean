import ClassForge.Compilation.Info
import ClassForge.Files.Path

/-!
# The cache of compiled classes

For each output directory and class the cache holds what the last compile gave and whether a compile
is under way. A request that comes while one is under way joins it. An entry that is marked during a
compile is compiled again afterwards, and a marked entry never serves what it holds.

Compiles are told apart by numbers, which the caller hands out.
-/

namespace ClassForge

/-- What is held of a class in an output directory. -/
structure CacheEntry where
  compiling : Option Nat := none
  dirty : Bool := false
  /-- What the last compile gave. -/
  cached : Option BuildInfo := none
deriving DecidableEq, Inhabited

/-- What a request for a class gets. -/
inductive CacheLookup where
  /-- What the cache holds. -/
  | ready (info : BuildInfo)
  | joined (job : Nat)
  | started (job : Nat)
deriving DecidableEq

namespace CacheEntry

/-- Asks for a class; a compile that has to begin gets the given number. -/
def lookup (e : CacheEntry) (force : Bool) (job : Nat) : CacheLookup × CacheEntry :=
  match e.compiling with
  | some running => (.joined running, { e with dirty := e.dirty || force })
  | none =>
    let start := (.started job, { e with compiling := some job, dirty := false })
    if force || e.dirty then start
    else
      match e.cached with
      | some info => (.ready info, e)
      | none => start

def finish (e : CacheEntry) (outcome : CompileOutcome) : CacheEntry :=
  { e with compiling := none, cached := outcome.toOption }

def served? (e : CacheEntry) : Option BuildInfo := if e.dirty then none else e.cached

end CacheEntry

structure Cache where
  outputs : Table (Table CacheEntry) := .empty

namespace Cache

def entry? (c : Cache) (dir : Path) (classname : String) : Option CacheEntry := do
  (← c.outputs.get? dir.plain).get? classname

def entry (c : Cache) (dir : Path) (classname : String) : CacheEntry :=
  (c.entry? dir classname).getD {}

def put (c : Cache) (dir : Path) (classname : String) (e : CacheEntry) : Cache :=
  ⟨c.outputs.insert dir.plain ((c.outputs.getD dir.plain .empty).insert classname e)⟩

/-- Asks for a class; a compile that has to begin gets the given number. -/
def lookup (c : Cache) (dir : Path) (classname : String) (force : Bool) (job : Nat) :
    CacheLookup × Cache :=
  let (found, e) := (c.entry dir classname).lookup force job
  (found, c.put dir classname e)

def finish (c : Cache) (dir : Path) (classname : String) (outcome : CompileOutcome) :
    Bool × Cache :=
  let e := (c.entry dir classname).finish outcome
  (e.dirty, c.put dir classname e)

def markDirty (c : Cache) (dir : Path) (classname : String) : Cache :=
  c.put dir classname { c.entry dir classname with dirty := true }

def markClassDirty (c : Cache) (classname : String) : Cache :=
  ⟨c.outputs.map fun _ t => t.modify classname fun e => { e with dirty := true }⟩

def outputsOf (c : Cache) (classname : String) : Nat :=
  (c.outputs.values.filter (·.contains classname)).length

def isDirty (c : Cache) (dir : Path) (classname : String) : Bool := (c.entry dir classname).dirty

def served? (c : Cache) (dir : Path) (classname : String) : Option BuildInfo :=
  (c.entry dir classname).served?

def inFlight (c : Cache) : Nat :=
  (c.outputs.values.flatMap fun t => t.values.filter (·.compiling.isSome)).length

def clear (c : Cache) (dir : Path) : Cache :=
  ⟨c.outputs.map fun k t => if k = dir.plain then t.filter fun _ e => e.compiling.isSome else t⟩

end Cache

end ClassForge
