import ClassForge.Build.Step

/-!
# Schedules

Tasks take turns. In its turn a task goes as far as it can: a compile or run it waits for is taken
further by it, unless that compile gives way. A task that cannot go on is parked until what it waits
for has ended. One task is the main one; it has a turn whenever no other task has anything to do.

Tasks may follow each other without end: a class that cannot be compiled makes its makers run again,
and each of them compiles it again. So the number of turns is bounded by an argument.
-/

namespace ClassForge

namespace CompileThread

def isDone (t : CompileThread) : Bool :=
  match t.progress with
  | .done _ => true
  | _ => false

def outcome? (t : CompileThread) : Option CompileOutcome :=
  match t.progress with
  | .done outcome => some outcome
  | _ => none

def isWoken (b : Build) (t : CompileThread) : Bool :=
  match t.progress with
  | .waiting job => (b.jobResult? job).isSome
  | _ => false

end CompileThread

namespace MakeThread

def isDone (t : MakeThread) : Bool :=
  match t.progress with
  | .done _ => true
  | _ => false

def result? (t : MakeThread) : Option MakeResult :=
  match t.progress with
  | .done result => some result
  | _ => none

def isWoken (b : Build) (t : MakeThread) : Bool :=
  match t.progress with
  | .waiting run _ =>
    match b.runs[run]? with
    | some { progress := .done _, .. } => true
    | some { progress := .growing _ _ _ threads, .. } => threads.any (·.isWoken b)
    | _ => false
  | _ => false

end MakeThread

namespace Task

def isDone (b : Build) : Task → Bool
  | drive job => (b.jobResult? job).isSome
  | compiles threads => threads.all (·.isDone)
  | makes threads => threads.all (·.isDone)

def isWoken (b : Build) : Task → Bool
  | drive _ => true
  | compiles threads => threads.any (·.isWoken b)
  | makes threads => threads.any (·.isWoken b)

end Task

namespace Build

def pollCompile : Nat → Build → CompileThread → Build × CompileThread
  | 0, b, t => (b, t)
  | n + 1, b, t =>
    match t.progress with
    | .done _ => (b, t)
    | .asking _ =>
      let (b, t) := b.stepCompile t
      pollCompile n b t
    | .waiting job =>
      let b := b.stepJob job
      if (b.jobResult? job).isSome then
        let (b, t) := b.stepCompile t
        pollCompile n b t
      else (b, t)

def pollCompiles (n : Nat) : Build → List CompileThread → Build × List CompileThread
  | b, [] => (b, [])
  | b, t :: rest =>
    let (b, t) := pollCompile n b t
    let (b, rest) := pollCompiles n b rest
    (b, t :: rest)

def pollRun : Nat → Build → (run : Nat) → Build
  | 0, b, _ => b
  | n + 1, b, r =>
    match b.runs[r]? with
    | some { progress := .fresh, .. } => pollRun n (b.stepRun r) r
    | some { maker, progress := .growing known resources e threads } =>
      let (b, threads) := pollCompiles n b threads
      let run := { maker, progress := .growing known resources e threads }
      let b := { b with runs := b.runs.set r run }
      if threads.all (·.isDone) then pollRun n (b.stepRun r) r else b
    | _ => b

def pollMake : Nat → Build → MakeThread → Build × MakeThread
  | 0, b, t => (b, t)
  | n + 1, b, t =>
    match t.progress with
    | .done _ => (b, t)
    | .asking =>
      let (b, t) := b.stepMake t
      pollMake n b t
    | .waiting run _ =>
      let b := pollRun n b run
      if (b.runResult? run).isSome then
        let (b, t) := b.stepMake t
        pollMake n b t
      else (b, t)

def pollMakes (n : Nat) : Build → List MakeThread → Build × List MakeThread
  | b, [] => (b, [])
  | b, t :: rest =>
    let (b, t) := pollMake n b t
    let (b, rest) := pollMakes n b rest
    (b, t :: rest)

def poll (n : Nat) (b : Build) : Task → Build × Task
  | .drive job => (b.stepJob job, .drive job)
  | .compiles threads =>
    let (b, threads) := pollCompiles n b threads
    (b, .compiles threads)
  | .makes threads =>
    let (b, threads) := pollMakes n b threads
    (b, .makes threads)

def stride : Nat := 1000000

/-- Lets tasks take turns, until all are done or no turns are left. -/
def run : Nat → Build → (main : Task) → (queue parked : List Task) → Build × Task
  | 0, b, main, _, _ => (b, main)
  | n + 1, b, main, [], parked =>
    if main.isDone b then (b, main)
    else
      let (b, main) := b.poll stride main
      let (woken, parked) := parked.partition (·.isWoken b)
      run n { b with spawned := [] } main (b.spawned ++ woken) parked
  | n + 1, b, main, t :: queue, parked =>
    let (b, t) := b.poll stride t
    let (woken, parked) := parked.partition (·.isWoken b)
    let queue := queue ++ b.spawned ++ woken
    let b := { b with spawned := [] }
    if t.isDone b then run n b main queue parked
    else if t.isWoken b then run n b main (queue ++ [t]) parked
    else run n b main queue (parked ++ [t])

def turnLimit (b : Build) : Nat := 400 + 10 * b.classes.size

def perform (b : Build) (main : Task) : Build × Task := run b.turnLimit b main [] []

end Build

end ClassForge
