import ClassForge.Compilation.Basic
import ClassForge.Compilation.Message

/-!
# Workers

A worker compiles classes against the snapshot it was given last. Whatever goes wrong in a call is
the error of that call, and the worker goes on.
-/

namespace ClassForge

open Json (encode)

structure Worker where
  id : Nat
  snapshot : Snapshot := {}

namespace Worker

def setSnapshot : String := "setMetaSnapshot"

def compileClass : String := "compileClass"

def ping : String := "ping"

def readSnapshot (j : Json) : Except String Snapshot :=
  match j with
  | .string text =>
    match Json.parse? text with
    | some j => (Json.decode j).mapError fun e => "invalid snapshot: " ++ e.message
    | none => .error "invalid snapshot: malformed text"
  | j => (Json.decode j).mapError fun e => "invalid snapshot: " ++ e.message

def compile (w : Worker) (transformer : Transformer) (r : CompileRequest) :
    StateM FileTree (Except String Datum) := do
  match ← (Compilation.compile r w.snapshot.resolver transformer).run with
  | .ok info => return .ok (.ofJson (encode info))
  | .error (.crashed m) => return .error ("worker panicked: " ++ m)
  | .error e => return .error e.message

def call (w : Worker) (transformer : Transformer) (method : String) (args : List Datum) :
    StateM FileTree (Except String Datum × Worker) := do
  if method = setSnapshot then
    match args with
    | [] => return (.error "setMetaSnapshot needs a snapshot", w)
    | arg :: _ =>
      match readSnapshot arg.json with
      | .ok snapshot => return (.ok (.ofJson (.bool true)), { w with snapshot })
      | .error m => return (.error m, w)
  else if method = compileClass then
    match args with
    | [] => return (.error "compileClass needs a request", w)
    | arg :: _ =>
      match (Json.decode arg.json : Except Json.DecodeError CompileRequest) with
      | .ok r => return (← w.compile transformer r, w)
      | .error e => return (.error e.message, w)
  else if method = ping then return (.ok (.ofJson (.string "pong")), w)
  else return (.error ("unknown method " ++ method), w)

def dispatch (w : Worker) (transformer : Transformer) :
    Message → StateM FileTree (Option Message × Worker)
  | .call method args id => do
    let (outcome, w) ← w.call transformer method args
    return (some (.ofOutcome id outcome), w)
  | _ => return (none, w)

end Worker

end ClassForge
