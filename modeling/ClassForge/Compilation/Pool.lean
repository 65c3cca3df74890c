import ClassForge.Compilation.Worker

/-!
# Worker pools

A pool hands calls to workers. A worker reports when it is ready; it then gets the first call that
waits, or is remembered as ready. Calls that come while no worker is ready wait in the order in which
they came. A broadcast goes to every worker at once, and only if all of them are ready.

The pool, its workers and the dispatcher that reads what the workers report take turns. Each of their
turns is a function on the pool: `submit` and `submitAll` for callers, `announce` and `execute` for a
worker, `deliver` for the dispatcher, and `shutdown`.
-/

namespace ClassForge

/-- Why a call of a pool has no result. -/
inductive PoolError where
  | workersBusy (busy : Nat)
  | method (worker : Nat) (name message : String)
  /-- The pool has been shut down. -/
  | closed
deriving DecidableEq

def PoolError.message : PoolError → String
  | workersBusy n => "callAll requires every worker to be idle (" ++ toString n ++ " busy)"
  | method w name m => "Worker " ++ toString w ++ " failed in " ++ name ++ ": " ++ m
  | closed => "Worker pool has shut down"

structure Seat where
  worker : Worker
  inbox : List Message := []
  announcing : Bool := true

structure Pool where
  seats : List Seat
  ready : List Nat := []
  queue : List Message := []
  pending : List (UInt64 × String) := []
  mail : List (Nat × Message) := []
  answers : List (UInt64 × Except PoolError Datum) := []
  reports : List (String × Datum) := []
  nextId : UInt64 := 1
  closed : Bool := false

namespace Pool

def ofSize (size : Nat) : Pool where
  seats := (List.range (max size 1)).map fun id => { worker := { id } }

def size (p : Pool) : Nat := p.seats.length

/-! ## Callers -/

def register (p : Pool) (method : String) (args : List Datum) : Message × Pool :=
  (.call method args p.nextId,
    { p with pending := p.pending ++ [(p.nextId, method)], nextId := p.nextId + 1 })

def send (p : Pool) (worker : Nat) (call : Message) : Pool :=
  { p with seats := p.seats.modify worker fun s => { s with inbox := s.inbox ++ [call] } }

def submit (p : Pool) (method : String) (args : List Datum) : Except PoolError UInt64 × Pool :=
  if p.closed then (.error .closed, p)
  else
    let id := p.nextId
    let (call, p) := p.register method args
    match p.ready with
    | worker :: rest => (.ok id, { p with ready := rest }.send worker call)
    | [] => (.ok id, { p with queue := p.queue ++ [call] })

def sendEach (method : String) (args : List Datum) : (workers : List Nat) → Pool →
    List UInt64 × Pool
  | [], p => ([], p)
  | worker :: rest, p =>
    let id := p.nextId
    let (call, p) := p.register method args
    let (ids, p) := sendEach method args rest (p.send worker call)
    (id :: ids, p)

def submitAll (p : Pool) (method : String) (args : List Datum) :
    Except PoolError (List UInt64) × Pool :=
  if p.closed then (.error .closed, p)
  else if p.ready.length < p.size then (.error (.workersBusy (p.size - p.ready.length)), p)
  else
    let (ids, p) := sendEach method args p.ready { p with ready := [] }
    (.ok ids, p)

def answer? (p : Pool) (id : UInt64) : Option (Except PoolError Datum) := p.answers.lookup id

def answer (p : Pool) (id : UInt64) (outcome : String → Except PoolError Datum) : Pool :=
  match p.pending.lookup id with
  | none => p
  | some method =>
    { p with
      pending := p.pending.filter (·.1 ≠ id)
      answers := (id, outcome method) :: p.answers }

def shutdown (p : Pool) : Pool :=
  if p.closed then p
  else
    { p with
      closed := true, queue := [], ready := [], pending := []
      answers := p.pending.map (fun c => (c.1, .error .closed)) ++ p.answers }

/-! ## Workers -/

def announce (p : Pool) (i : Nat) : Pool :=
  match p.seats[i]? with
  | none => p
  | some s =>
    if s.announcing then
      { p with
        seats := p.seats.set i { s with announcing := false }
        mail := p.mail ++ [(i, .ready)] }
    else p

/-- A worker does the next call it has been sent, and reports the result. -/
def execute (p : Pool) (transformer : Transformer) (i : Nat) : StateM FileTree Pool := do
  match p.seats[i]? with
  | none => return p
  | some s =>
    match s.announcing, s.inbox with
    | false, call :: rest =>
      let (reply, worker) ← s.worker.dispatch transformer call
      return { p with
        seats := p.seats.set i { worker, inbox := rest, announcing := true }
        mail := p.mail ++ (reply.map fun m => (i, m)).toList }
    | _, _ => return p

/-! ## The dispatcher -/

def workerReady (p : Pool) (worker : Nat) : Pool :=
  if p.closed then p
  else
    match p.queue with
    | call :: rest => { p with queue := rest }.send worker call
    | [] => { p with ready := p.ready ++ [worker] }

def complete (p : Pool) (worker : Nat) (result : Option Datum) (error : Option String)
    (id : UInt64) : Pool :=
  p.answer id fun method =>
    match error with
    | some m => .error (.method worker method m)
    | none => .ok (result.getD (.ofJson .null))

/-- The dispatcher reads the next report. -/
def deliver (p : Pool) : Pool :=
  match p.mail with
  | [] => p
  | (worker, message) :: rest =>
    let p := { p with mail := rest }
    match message with
    | .answer result error id => p.complete worker result error id
    | .event name data =>
      if name = Message.readyName then p.workerReady worker
      else { p with reports := p.reports ++ [(name, data)] }
    | .call .. => p

/-! ## Taking turns -/

/-- How many turns are left at most until nothing is to be done: a call that waits is sent, done,
reported and read, and then its worker reports and is read. -/
def work (p : Pool) : Nat :=
  p.seats.foldl (fun n s => n + 4 * s.inbox.length + if s.announcing then 2 else 0)
    (5 * p.queue.length + p.mail.length)

def turn (p : Pool) (transformer : Transformer) : StateM FileTree Pool := do
  if !p.mail.isEmpty then return p.deliver
  match p.seats.findIdx? (·.announcing) with
  | some i => return p.announce i
  | none =>
    match p.seats.findIdx? (!·.inbox.isEmpty) with
    | some i => p.execute transformer i
    | none => return p

def turns (transformer : Transformer) : Nat → Pool → StateM FileTree Pool
  | 0, p => return p
  | n + 1, p => do turns transformer n (← p.turn transformer)

/-- Takes turns until nothing is to be done. -/
def settle (p : Pool) (transformer : Transformer) : StateM FileTree Pool :=
  turns transformer p.work p

def wait (p : Pool) (transformer : Transformer) : StateM FileTree (Except PoolError Unit × Pool) := do
  let p ← p.settle transformer
  return (if p.closed then .error .closed else .ok (), p)

def call (p : Pool) (transformer : Transformer) (method : String) (args : List Datum) :
    StateM FileTree (Except PoolError Datum × Pool) := do
  match p.submit method args with
  | (.error e, p) => return (.error e, p)
  | (.ok id, p) =>
    let p ← p.settle transformer
    return ((p.answer? id).getD (.error .closed), p)

def callMany (p : Pool) (transformer : Transformer) (calls : List (String × List Datum)) :
    StateM FileTree (List (Except PoolError Datum) × Pool) := do
  let (ids, p) := calls.foldl (fun (ids, p) (method, args) =>
    let (id, p) := submit p method args
    (ids ++ [id], p)) ([], p)
  let p ← p.settle transformer
  return (ids.map fun id => do ((p.answer? (← id)).getD (.error .closed)), p)

/-- Calls a method on every worker and waits for all answers; the first error counts. -/
def callAll (p : Pool) (transformer : Transformer) (method : String) (args : List Datum) :
    StateM FileTree (Except PoolError (List Datum) × Pool) := do
  match p.submitAll method args with
  | (.error e, p) => return (.error e, p)
  | (.ok ids, p) =>
    let p ← p.settle transformer
    return (ids.mapM fun id => (p.answer? id).getD (.error .closed), p)

end Pool

end ClassForge
