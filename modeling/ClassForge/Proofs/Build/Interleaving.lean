import ClassForge.Proofs.Build.Ledger
import ClassForge.Proofs.Schedule

/-!
# Interleaved requests

Requests to compile and to make overlap in any number, compiles and runs go on whenever it is their
turn, and meanwhile classes and files change and makers are let run by themselves or not. Every order
of these turns is a schedule.
-/

namespace ClassForge.Build

structure Requester where
  thread : MakeThread
  asked : Bool := false

structure System where
  build : Build
  compiles : List CompileThread := []
  requesters : List Requester := []

/-- A turn. -/
inductive Action where
  | askCompile (maker : Nat) (classname : String) (force : Bool)
  | askMake (maker : Nat) (dirty : Bool)
  | compile (k : Nat)
  | compileIn (r k : Nat)
  | job (j : Nat)
  | make (k : Nat)
  | run (r : Nat)
  | change (change : ClassChange)
  | autoMake (on : Bool)
  | edit (files : FileTree)

namespace System

/-- A build of which nothing has been asked yet. -/
def start (files : FileTree) (backend : Backend) (metadata : Metadata) (classes : Table Path)
    (makers : List Maker) : System :=
  { build := { files, backend, metadata, classes, makers } }

def act (s : System) : Action → System
  | .askCompile maker classname force =>
    { s with compiles := s.compiles ++ [compileThread maker force classname] }
  | .askMake maker dirty => { s with requesters := s.requesters ++ [{ thread := { maker, dirty } }] }
  | .compile k =>
    match s.compiles[k]? with
    | none => s
    | some t =>
      let (build, t) := s.build.stepCompile t
      { s with build, compiles := s.compiles.set k t }
  | .compileIn r k =>
    match s.build.runs[r]? with
    | some { maker, progress := .growing known resources e threads } =>
      match threads[k]? with
      | none => s
      | some t =>
        let (b, t) := s.build.stepCompile t
        let run := { maker, progress := .growing known resources e (threads.set k t) }
        { s with build := { b with runs := b.runs.set r run } }
    | _ => s
  | .job j => { s with build := s.build.stepJob j }
  | .make k =>
    match s.requesters[k]? with
    | none => s
    | some q =>
      let (build, thread) := s.build.stepMake q.thread
      { s with build, requesters := s.requesters.set k { thread, asked := true } }
  | .run r => { s with build := s.build.stepRun r }
  | .change change => { s with build := (s.build.handle change).1 }
  | .autoMake on => { s with build := { s.build with autoMake := on } }
  | .edit files => { s with build := { s.build with files } }

end System

end ClassForge.Build
