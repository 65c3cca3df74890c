import ClassForge.Json.Codec

/-!
# Events

What a run reports while it goes on. An event is written as an object with its name and its data.
-/

namespace ClassForge

open Json (Encode Decode encode)

/-- A report on the progress of a run. -/
inductive Event where
  | classAdded (classname : String)
  | classChanged (classname : String)
  | classRemoved (classname : String)
  | compilingClass (classname target : String)
  /-- A class is ready; `transpiled` says whether it was compiled just now. -/
  | compiledClass (classname target : String) (transpiled : Bool)
  | makeStarted (target : String)
  | writingApplication (application target : String)
  | writtenApplication (application target : String)
  | makeFinished (target : String) (success : Bool)
  | worker (event : String) (data : Datum)
deriving DecidableEq

namespace Event

def name : Event → String
  | classAdded _ => "classAdded"
  | classChanged _ => "classChanged"
  | classRemoved _ => "classRemoved"
  | compilingClass _ _ => "compilingClass"
  | compiledClass _ _ _ => "compiledClass"
  | makeStarted _ => "makeStarted"
  | writingApplication _ _ => "writingApplication"
  | writtenApplication _ _ => "writtenApplication"
  | makeFinished _ _ => "makeFinished"
  | worker _ _ => "worker"

def names : List String :=
  ["classAdded", "classChanged", "classRemoved", "compilingClass", "compiledClass", "makeStarted",
    "writingApplication", "writtenApplication", "makeFinished", "worker"]

def target? : Event → Option String
  | compilingClass _ t | compiledClass _ t _ | makeStarted t | writingApplication _ t
  | writtenApplication _ t | makeFinished t _ => some t
  | _ => none

def data : Event → Json
  | classAdded c | classChanged c | classRemoved c => .object [("classname", .string c)]
  | compilingClass c t => .object [("classname", .string c), ("target", .string t)]
  | compiledClass c t b =>
    .object [("classname", .string c), ("target", .string t), ("transpiled", .bool b)]
  | makeStarted t => .object [("target", .string t)]
  | writingApplication a t | writtenApplication a t =>
    .object [("application", .string a), ("target", .string t)]
  | makeFinished t b => .object [("target", .string t), ("success", .bool b)]
  | worker e d => .object [("event", .string e), ("data", encode d)]

def ofData (name : String) (data : Json) : Except Json.DecodeError Event :=
  match name with
  | "classAdded" => Json.readFields (return .classAdded (← Json.required "classname")) data
  | "classChanged" => Json.readFields (return .classChanged (← Json.required "classname")) data
  | "classRemoved" => Json.readFields (return .classRemoved (← Json.required "classname")) data
  | "compilingClass" => Json.readFields (do
      return .compilingClass (← Json.required "classname") (← Json.required "target")) data
  | "compiledClass" => Json.readFields (do
      return .compiledClass (← Json.required "classname") (← Json.required "target")
        (← Json.required "transpiled")) data
  | "makeStarted" => Json.readFields (return .makeStarted (← Json.required "target")) data
  | "writingApplication" => Json.readFields (do
      return .writingApplication (← Json.required "application") (← Json.required "target")) data
  | "writtenApplication" => Json.readFields (do
      return .writtenApplication (← Json.required "application") (← Json.required "target")) data
  | "makeFinished" => Json.readFields (do
      return .makeFinished (← Json.required "target") (← Json.required "success")) data
  | "worker" => Json.readFields (do
      return .worker (← Json.required "event") (← Json.required "data")) data
  | other => .error (.unknownVariant other names)

end Event

namespace Event

def compileKey? : Event → Option (String × Bool)
  | compilingClass c _ => some (c, false)
  | compiledClass c _ _ => some (c, true)
  | _ => none

def bothCompile (a b : Event) : Bool := a.compileKey?.isSome && b.compileKey?.isSome

def compileLe (a b : Event) : Bool :=
  match a.compileKey?, b.compileKey? with
  | some (c, ready), some (d, ready') => c < d || (c = d && (!ready || ready'))
  | _, _ => true

/-- Events by their targets, those without one under the empty name. Neighbouring events about
compiles are put in order, so that it does not matter how the compiles overlapped. -/
def transcript (events : List Event) : Table (List Event) :=
  let name (e : Event) : String := e.target?.getD ""
  Table.ofList ((sortedNames (events.map name)).map fun t =>
    let stretches := (events.filter (name · = t)).splitBy bothCompile
    (t, stretches.flatMap fun l => l.mergeSort compileLe))

end Event

instance : Encode Event := ⟨fun e => .object [("event", .string e.name), ("data", e.data)]⟩

instance : Decode Event := ⟨fun j => do
  let (name, data) ← Json.readFields (do
    let name : String ← Json.required "event"
    let data : Json ← Json.required "data"
    return (name, data)) j
  Event.ofData name data⟩

end ClassForge
