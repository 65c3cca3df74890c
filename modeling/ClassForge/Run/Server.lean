import ClassForge.Run.Basic

/-!
# Servers

A server does runs for another program. It reads messages line by line, answers each call, and reports
what happens during a run as events. A run whose configuration names a server is left to that server.
-/

namespace ClassForge

namespace Server

def compileMethod : String := "compile"

def stopMethod : String := "stop"

def reportName : String := "compilerEvent"

/-! ## Serving

A server reads lines and does the runs they call for, all at the same time. Each step of the reader
and of a run is a function on the session: `readLine` and `close` for the reader, `beginRun`,
`finishRun` and `reply` for a run.
-/

inductive CallProgress where
  | accepted
  /-- Its run has begun. -/
  | running (config : Config)
  /-- Its run has ended, and can no longer be told to. -/
  | ended (outcome : Except String Datum)
  | answered

structure RunCall where
  id : UInt64
  args : List Datum
  progress : CallProgress := .accepted
  stopped : Bool := false

structure Session where
  calls : List RunCall := []
  /-- The runs that can be told to end, by the numbers that their callers know: their places among
  the calls. -/
  running : List (UInt64 × Nat) := []
  output : List Message := []

def callOf? (line : String) : Option (String × List Datum × UInt64) := do
  match ((Json.decode (← Json.parse? line)).toOption : Option Message) with
  | some (.call method args id) => some (method, args, id)
  | _ => none

def projectDirOf : List Datum → Path
  | dir :: _ => ⟨(dir.json.string?).getD "."⟩
  | [] => ⟨"."⟩

/-- The configuration that a call asks for. A run in a server is never left to another one. -/
def configOf : List Datum → Except String Config
  | [] => .error "compile needs a configuration"
  | config :: rest =>
    match Config.ofJson config.json (projectDirOf rest) with
    | .error e => .error e.message
    | .ok c => .ok { c with server := none }

namespace Session

def write (s : Session) (messages : List Message) : Session :=
  { s with output := s.output ++ messages }

/-- Tells the runs that are under way to end. -/
def stopRuns (s : Session) : Session :=
  { s with calls := s.calls.mapIdx fun i c =>
      if s.running.any (·.2 = i) then { c with stopped := true } else c }

def readLine (s : Session) (line : String) : Session :=
  match callOf? line with
  | none => s
  | some (method, args, id) =>
    if method = compileMethod then { s with calls := s.calls ++ [{ id, args }] }
    else if method = stopMethod then
      s.stopRuns.write [.ofOutcome id (.ok (.ofJson (.int s.running.length)))]
    else if method = Worker.ping then s.write [.ofOutcome id (.ok (.ofJson (.string "pong")))]
    else s.write [.ofOutcome id (.error ("unknown method " ++ method))]

def close (s : Session) : Session := s.stopRuns

def endRun (s : Session) (i : Nat) (call : RunCall) (outcome : Except String Datum) : Session :=
  { s with
    calls := s.calls.set i { call with progress := .ended outcome }
    running := s.running.filter (·.1 ≠ call.id) }

def beginRun (s : Session) (i : Nat) : Session :=
  match s.calls[i]? with
  | some call@{ progress := .accepted, .. } =>
    match configOf call.args with
    | .error m => s.endRun i call (.error m)
    | .ok c =>
      { s with
        calls := s.calls.set i { call with progress := .running c }
        running := (call.id, i) :: s.running.filter (·.1 ≠ call.id) }
  | _ => s

def finishRun (s : Session) (i : Nat) : StateM FileTree Session := do
  match s.calls[i]? with
  | some call@{ progress := .running c, .. } =>
    let (result, events) ← Run.here c
    let reports := events.map fun e => Message.event reportName (.ofJson (Json.encode e))
    let outcome := match result with
      | .ok outcome => .ok (.ofJson (Json.encode outcome))
      | .error e => .error e.message
    return (s.write reports).endRun i call outcome
  | _ => return s

def reply (s : Session) (i : Nat) : Session :=
  match s.calls[i]? with
  | some call@{ progress := .ended outcome, .. } =>
    { s with calls := s.calls.set i { call with progress := .answered } }.write
      [.ofOutcome call.id outcome]
  | _ => s

def doRuns : List Nat → Session → StateM FileTree Session
  | [], s => return s
  | i :: rest, s => do doRuns rest ((← (s.beginRun i).finishRun i).reply i)

end Session

def serve (lines : List String) : StateM FileTree (List Message) := do
  let s := (lines.foldl Session.readLine {}).close
  return (← s.doRuns (List.range s.calls.length)).output

/-! ## Leaving a run to a server -/

abbrev Program := String → List String

def reportOf (name : String) (data : Datum) : Option Event :=
  if name = reportName then (Json.decode data.json).toOption else some (.worker name data)

def readAnswer (id : UInt64) : List String → Except RunError Datum × List Event
  | [] => (.error (.remote "server exited before replying"), [])
  | line :: rest =>
    match ((Json.parse? line).bind fun j => (Json.decode j).toOption : Option Message) with
    | some (.answer result error i) =>
      if i = id then
        (match error with
          | some m => .error (.remote m)
          | none => .ok (result.getD (.ofJson .null)), [])
      else readAnswer id rest
    | some (.event name data) =>
      let (answer, events) := readAnswer id rest
      (answer, (reportOf name data).toList ++ events)
    | _ => readAnswer id rest

def requestOf (c : Config) (id : UInt64) : Message :=
  .call compileMethod [.ofJson (Json.encode c), .ofJson (.string c.projectDir.text)] id

def delegate (start : List String → Except FileError Program) (command : List String) (c : Config) :
    Except RunError RunOutcome × List Event :=
  if command.isEmpty then (.error (.remote "empty server command"), [])
  else
    match start command with
    | .error e => (.error (.io e), [])
    | .ok program =>
      let (answer, events) :=
        readAnswer 1 (program (Json.encode (requestOf { c with server := none } 1)).render)
      (do (Json.decode (← answer).json).mapError fun e => .remote e.message, events)

end Server

def Config.run (c : Config) (start : List String → Except FileError Server.Program) :
    StateM FileTree (Except RunError RunOutcome × List Event) :=
  match c.server with
  | some server => return Server.delegate start server.command c
  | none => Run.here c

end ClassForge
