import ClassForge.Compilation.Pool
import ClassForge.Proofs.Schedule

/-!
# The workers of a pool

Callers, workers and the dispatcher of a pool take turns in any order. Each worker goes round: it
reports that it is ready, the dispatcher reads this and remembers it or sends it a call, it does the
call and reports the result, and begins anew. So it never has two calls, and it is remembered as ready
only while it has none.
-/

namespace ClassForge.Pool

/-- A turn. -/
inductive Action where
  | submit (method : String) (args : List Datum)
  | submitAll (method : String) (args : List Datum)
  | announce (i : Nat)
  | execute (transformer : Transformer) (files : FileTree) (i : Nat)
  | deliver
  | shutdown

def act (p : Pool) : Action → Pool
  | .submit method args => (p.submit method args).2
  | .submitAll method args => (p.submitAll method args).2
  | .announce i => p.announce i
  | .execute transformer files i => ((p.execute transformer i).run files).1
  | .deliver => p.deliver
  | .shutdown => p.shutdown

def accepts (p : Pool) : Action → List Message
  | .submit method args => (p.submit method args).1.toOption.toList.map (.call method args)
  | .submitAll method args => ((p.submitAll method args).1.toOption.getD []).map (.call method args)
  | _ => []

/-- The calls that are accepted in a schedule, in this order. -/
def accepted (p : Pool) : List Action → List Message
  | [] => []
  | a :: schedule => p.accepts a ++ (p.act a).accepted schedule

variable {p p' : Pool} {s : Seat} {i w n : Nat} {id : UInt64} {method : String} {args : List Datum}
  {m : Message} {rest : List (Nat × Message)} {schedule : List Action} {transformer : Transformer}
  {closed announcing : Bool}

theorem accepted_append (p : Pool) (schedule more : List Action) :
    p.accepted (schedule ++ more) = p.accepted schedule ++ (schedule.foldl act p).accepted more := by
  induction schedule generalizing p with
  | nil => rfl
  | cons a schedule ih => simp [accepted, ih]

/-! ## A call for every worker -/

theorem sendEach_ready (method : String) (args : List Datum) (workers : List Nat)
    (hready : p.ready = workers) (hopen : p.closed = false) :
    (sendEach method args workers { p with ready := [] }).2 =
        (List.replicate workers.length (.submit method args)).foldl act p ∧
      (sendEach method args workers { p with ready := [] }).1.map (.call method args) =
        p.accepted (List.replicate workers.length (.submit method args)) := by
  induction workers generalizing p with
  | nil =>
    have hsame : { p with ready := [] } = p := by rw [← hready]
    exact ⟨hsame, rfl⟩
  | cons worker rest ih =>
    let next :=
      { (p.register method args).2 with ready := rest }.send worker (.call method args p.nextId)
    have hsubmit : p.submit method args = (.ok p.nextId, next) := by
      simp [submit, register, hopen, hready, next]
    have hact : p.act (.submit method args) = next := by simp [act, hsubmit]
    obtain ⟨hpool, hids⟩ := ih (p := next) rfl hopen
    have haccepts : p.accepts (.submit method args) = [.call method args p.nextId] := by
      simp [accepts, hsubmit, Except.toOption]
    simp only [List.length_cons, List.replicate_succ, List.foldl_cons, accepted, hact, haccepts]
    exact ⟨hpool, congrArg (Message.call method args p.nextId :: ·) hids⟩

theorem exists_submits (p : Pool) (method : String) (args : List Datum) :
    ∃ n, p.act (.submitAll method args) = (List.replicate n (.submit method args)).foldl act p ∧
      p.accepts (.submitAll method args) = p.accepted (List.replicate n (.submit method args)) := by
  by_cases hfree : p.closed = false ∧ p.size ≤ p.ready.length
  · obtain ⟨hopen, hsize⟩ := hfree
    obtain ⟨hpool, hids⟩ := sendEach_ready method args p.ready rfl hopen
    have hsent : p.submitAll method args =
        (.ok (sendEach method args p.ready { p with ready := [] }).1,
          (sendEach method args p.ready { p with ready := [] }).2) := by
      rw [submitAll, if_neg (by simp [hopen]), if_neg (Nat.not_lt.2 hsize)]
    refine ⟨p.ready.length, ?_, ?_⟩
    · rw [act, hsent, hpool]
    · rw [accepts, hsent, ← hids]
      rfl
  · have hrefused : ∃ e, p.submitAll method args = (.error e, p) := by
      simp only [submitAll]
      split_ifs with hclosed hbusy
      · exact ⟨_, rfl⟩
      · exact ⟨_, rfl⟩
      · exact absurd ⟨by simpa using hclosed, Nat.le_of_not_lt hbusy⟩ hfree
    obtain ⟨e, he⟩ := hrefused
    exact ⟨0, by simp [act, he], by simp [accepts, he, accepted, Except.toOption]⟩

/-- Calls for every worker can be left out of account. -/
theorem exists_single (p : Pool) (schedule : List Action) :
    ∃ single, (∀ a ∈ single, ∀ method args, a ≠ .submitAll method args) ∧
      single.foldl act p = schedule.foldl act p ∧ p.accepted single = p.accepted schedule := by
  induction schedule generalizing p with
  | nil => exact ⟨[], by simp, rfl, rfl⟩
  | cons a schedule ih =>
    obtain ⟨single, hsingle, hpool, haccepted⟩ := ih (p.act a)
    by_cases ha : ∃ method args, a = .submitAll method args
    · obtain ⟨method, args, rfl⟩ := ha
      obtain ⟨n, hact, haccepts⟩ := exists_submits p method args
      refine ⟨List.replicate n (Action.submit method args) ++ single, fun b hb => ?_, ?_, ?_⟩
      · obtain hb | hb := List.mem_append.1 hb
        · simp [List.eq_of_mem_replicate hb]
        · exact hsingle b hb
      · rw [List.foldl_append, ← hact, hpool, List.foldl_cons]
      · rw [accepted_append, ← hact, haccepted, ← haccepts, accepted]
    · refine ⟨a :: single, fun b hb method args heq => ?_, ?_, ?_⟩
      · obtain rfl | hb := List.mem_cons.1 hb
        · exact ha ⟨method, args, heq⟩
        · exact hsingle b hb method args heq
      · rw [List.foldl_cons, hpool, List.foldl_cons]
      · rw [accepted, haccepted, accepted]

/-! ## The round of a worker -/

def transit (p : Pool) (i : Nat) : List Message :=
  p.mail.filterMap fun m => if m.1 = i then some m.2 else none

def Reply (t : List Message) : Prop := t = [] ∨ ∃ result error id, t = [.answer result error id]

inductive Round (closed : Bool) : Bool → List Message → List Message → Nat → Prop
  | reporting {t : List Message} (h : Reply t) : Round closed true [] t 0
  | reported {t : List Message} (h : Reply t) : Round closed false [] (t ++ [Message.ready]) 0
  | idle : Round closed false [] [] 1
  | busy (method : String) (args : List Datum) (id : UInt64) :
    Round closed false [.call method args id] [] 0
  | retired (h : closed = true) : Round closed false [] [] 0

structure Orderly (p : Pool) : Prop where
  round : ∀ {i : Nat} {s : Seat}, p.seats[i]? = some s →
    Round p.closed s.announcing s.inbox (p.transit i) (p.ready.count i)
  mail : ∀ {m}, m ∈ p.mail → m.1 < p.seats.length
  ready : ∀ {i}, i ∈ p.ready → i < p.seats.length
  calls : ∀ {m}, m ∈ p.queue → ∃ method args id, m = .call method args id
  queue : p.queue ≠ [] → p.ready = []
  closed : p.closed = true → p.ready = [] ∧ p.queue = []

theorem orderly_ofSize (size : Nat) : Orderly (ofSize size) where
  round {i s} hi := by
    obtain ⟨j, -, rfl⟩ := List.mem_map.1 (List.mem_of_getElem? hi)
    exact .reporting (.inl rfl)
  mail h := by cases h
  ready h := by cases h
  calls h := by cases h
  queue h := absurd rfl h
  closed h := by cases h

/-- What a turn of an orderly pool can lead to, with the calls that are accepted. -/
inductive Turn (p : Pool) : List Message → Pool → Prop
  | rest : Turn p [] p
  | hand {w : Nat} {s : Seat} {rest : List Nat} (method : String) (args : List Datum)
      (hopen : p.closed = false) (hready : p.ready = w :: rest) (hw : p.seats[w]? = some s)
      (hinbox : s.inbox = []) :
      Turn p [.call method args p.nextId]
        { p with
          seats := p.seats.set w { s with inbox := [.call method args p.nextId] }
          ready := rest
          pending := p.pending ++ [(p.nextId, method)]
          nextId := p.nextId + 1 }
  | enqueue (method : String) (args : List Datum) (hopen : p.closed = false) (hready : p.ready = []) :
      Turn p [.call method args p.nextId]
        { p with
          queue := p.queue ++ [.call method args p.nextId]
          pending := p.pending ++ [(p.nextId, method)]
          nextId := p.nextId + 1 }
  | announce {i : Nat} {s : Seat} (hi : p.seats[i]? = some s) (h : s.announcing = true) :
      Turn p []
        { p with
          seats := p.seats.set i { s with announcing := false }
          mail := p.mail ++ [(i, .ready)] }
  | execute {i : Nat} {s : Seat} {method : String} {args : List Datum} {id : UInt64}
      (worker : Worker) (result : Option Datum) (error : Option String)
      (hi : p.seats[i]? = some s) (hinbox : s.inbox = [.call method args id]) :
      Turn p []
        { p with
          seats := p.seats.set i { worker, inbox := [], announcing := true }
          mail := p.mail ++ [(i, .answer result error id)] }
  | answer {w : Nat} {result : Option Datum} {error : Option String} {id : UInt64}
      {rest : List (Nat × Message)} {method : String} (outcome : Except PoolError Datum)
      (hmail : p.mail = (w, .answer result error id) :: rest)
      (hpending : p.pending.lookup id = some method) :
      Turn p []
        { p with
          mail := rest
          pending := p.pending.filter (·.1 ≠ id)
          answers := (id, outcome) :: p.answers }
  | drop {w : Nat} {result : Option Datum} {error : Option String} {id : UInt64}
      {rest : List (Nat × Message)} (hmail : p.mail = (w, .answer result error id) :: rest)
      (hpending : p.pending.lookup id = none) : Turn p [] { p with mail := rest }
  | dequeue {w : Nat} {s : Seat} {rest : List (Nat × Message)} {call : Message}
      {more : List Message} (hopen : p.closed = false) (hmail : p.mail = (w, .ready) :: rest)
      (hqueue : p.queue = call :: more) (hw : p.seats[w]? = some s) (hinbox : s.inbox = []) :
      Turn p []
        { p with
          mail := rest
          queue := more
          seats := p.seats.set w { s with inbox := [call] } }
  | remember {w : Nat} {rest : List (Nat × Message)} (hopen : p.closed = false)
      (hmail : p.mail = (w, .ready) :: rest) (hqueue : p.queue = []) :
      Turn p [] { p with mail := rest, ready := p.ready ++ [w] }
  | ignore {w : Nat} {rest : List (Nat × Message)} (hclosed : p.closed = true)
      (hmail : p.mail = (w, .ready) :: rest) : Turn p [] { p with mail := rest }
  | shutdown (hopen : p.closed = false) :
      Turn p []
        { p with
          closed := true, queue := [], ready := [], pending := []
          answers := p.pending.map (fun c => (c.1, .error .closed)) ++ p.answers }

theorem Round.ready {inbox t : List Message} (h : Round closed announcing inbox t n) (hn : 0 < n) :
    announcing = false ∧ inbox = [] ∧ t = [] ∧ n = 1 := by
  cases h with
  | idle => exact ⟨rfl, rfl, rfl, rfl⟩
  | _ => cases hn

theorem Round.inbox {call : Message} {rest t : List Message}
    (h : Round closed announcing (call :: rest) t n) :
    announcing = false ∧ rest = [] ∧ t = [] ∧ n = 0 ∧
      ∃ method args id, call = .call method args id := by
  cases h with
  | busy method args id => exact ⟨rfl, rfl, rfl, rfl, method, args, id, rfl⟩

theorem Round.head {inbox t : List Message} (h : Round closed announcing inbox (m :: t) n) :
    inbox = [] ∧ n = 0 ∧
      ((∃ result error id, m = .answer result error id) ∧ Round closed announcing [] t 0 ∨
        m = .ready ∧ t = [] ∧ announcing = false) := by
  generalize hl : m :: t = l at h
  cases h with
  | reporting h =>
    obtain rfl | ⟨result, error, id, rfl⟩ := h
    · cases hl
    · cases hl
      exact ⟨rfl, rfl, .inl ⟨⟨_, _, _, rfl⟩, .reporting (.inl rfl)⟩⟩
  | reported h =>
    obtain rfl | ⟨result, error, id, rfl⟩ := h
    · cases hl
      exact ⟨rfl, rfl, .inr ⟨rfl, rfl, rfl⟩⟩
    · cases hl
      exact ⟨rfl, rfl, .inl ⟨⟨_, _, _, rfl⟩, .reported (.inl rfl)⟩⟩
  | _ => cases hl

theorem Round.shutdown {inbox t : List Message} (h : Round closed announcing inbox t n) :
    Round true announcing inbox t 0 := by
  cases h with
  | reporting h => exact .reporting h
  | reported h => exact .reported h
  | busy method args id => exact .busy method args id
  | idle | retired _ => exact .retired rfl

theorem transit_cons (hmail : p.mail = (w, m) :: rest) :
    p.transit w = m :: { p with mail := rest }.transit w := by
  simp [transit, hmail]

theorem transit_cons_ne (hmail : p.mail = (w, m) :: rest) (hi : i ≠ w) :
    { p with mail := rest }.transit i = p.transit i := by
  simp [transit, hmail, hi.symm]

theorem transit_concat (hmail : p'.mail = p.mail ++ [(w, m)]) :
    p'.transit i = p.transit i ++ if w = i then [m] else [] := by
  by_cases hi : w = i <;> simp [transit, hmail, hi]

theorem ofOutcome_eq (id : UInt64) (outcome : Except String Datum) :
    ∃ result error, Message.ofOutcome id outcome = .answer result error id := by
  cases outcome <;> exact ⟨_, _, rfl⟩

theorem submit_of_ready (method : String) (args : List Datum) {others : List Nat}
    (hopen : p.closed = false) (hready : p.ready = w :: others) :
    p.submit method args = (.ok p.nextId,
      { (p.register method args).2 with ready := others }.send w (.call method args p.nextId)) := by
  simp [submit, hopen, register, hready]

theorem execute_call {files : FileTree} {rest : List Message} (hs : p.seats[i]? = some s)
    (hannouncing : s.announcing = false) (hinbox : s.inbox = .call method args id :: rest) :
    let done := ((s.worker.call transformer method args).run files).1
    ((p.execute transformer i).run files).1 =
      { p with
        seats := p.seats.set i { worker := done.2, inbox := rest, announcing := true }
        mail := p.mail ++ [(i, .ofOutcome id done.1)] } := by
  simp only [execute, hs, hannouncing, hinbox]
  rfl

theorem execute_idle {files : FileTree} (h : ∀ s, p.seats[i]? = some s → s.inbox = []) :
    (p.execute transformer i).run files = (p, files) := by
  cases hs : p.seats[i]? with
  | none =>
    simp only [execute, hs]
    rfl
  | some s => cases hannouncing : s.announcing <;> simp only [execute, hs, h s hs, hannouncing] <;> rfl

namespace Orderly

theorem seat_of_ready (h : Orderly p) (hw : w ∈ p.ready) :
    ∃ s, p.seats[w]? = some s ∧ s.announcing = false ∧ s.inbox = [] ∧ p.transit w = [] ∧
      p.ready.count w = 1 := by
  have hs := List.getElem?_eq_getElem (h.ready hw)
  exact ⟨_, hs, (h.round hs).ready (List.count_pos_iff.2 hw)⟩

theorem seat_of_mail (h : Orderly p) (hmail : p.mail = (w, m) :: rest) :
    ∃ s, p.seats[w]? = some s ∧ s.inbox = [] ∧ p.ready.count w = 0 ∧
      ((∃ result error id, m = .answer result error id) ∧
          Round p.closed s.announcing [] ({ p with mail := rest }.transit w) 0 ∨
        m = .ready ∧ { p with mail := rest }.transit w = [] ∧ s.announcing = false) := by
  have hs := List.getElem?_eq_getElem (h.mail (hmail ▸ List.mem_cons_self))
  have hround := h.round hs
  rw [transit_cons hmail] at hround
  exact ⟨_, hs, hround.head⟩

theorem submit_turn (h : Orderly p) (method : String) (args : List Datum) :
    Turn p (p.accepts (.submit method args)) (p.act (.submit method args)) := by
  cases hclosed : p.closed with
  | true =>
    have hrefused : p.submit method args = (.error .closed, p) := by simp [submit, hclosed]
    simp only [act, accepts, hrefused]
    exact .rest
  | false =>
    cases hready : p.ready with
    | nil =>
      have hsubmit : p.submit method args = (.ok p.nextId,
          { (p.register method args).2 with queue := p.queue ++ [.call method args p.nextId] }) := by
        simp [submit, hclosed, register, hready]
      simp only [act, accepts, hsubmit]
      exact .enqueue method args hclosed hready
    | cons w rest =>
      obtain ⟨s, hs, -, hinbox, -, -⟩ := h.seat_of_ready (w := w) (by simp [hready])
      have hturn := Turn.hand method args hclosed hready hs hinbox
      simp only [act, accepts, submit_of_ready method args hclosed hready, send, register, List.modify_eq_set_getElem?, hs]
      simpa [hinbox, Except.toOption] using hturn

theorem announce_turn (i : Nat) : Turn p [] (p.announce i) := by
  rw [announce]
  split
  · exact .rest
  · next s hs =>
    split_ifs with hannouncing
    · exact .announce hs hannouncing
    · exact .rest

theorem idle_or_called (h : Orderly p) (i : Nat) :
    (∀ s, p.seats[i]? = some s → s.inbox = []) ∨ ∃ s method args id,
      p.seats[i]? = some s ∧ s.announcing = false ∧ s.inbox = [.call method args id] := by
  cases hs : p.seats[i]? with
  | none => exact .inl (by simp)
  | some s =>
    cases hinbox : s.inbox with
    | nil => exact .inl (by simp [hinbox])
    | cons call rest =>
      have hround := h.round hs
      rw [hinbox] at hround
      obtain ⟨hannouncing, rfl, -, -, method, args, id, rfl⟩ := hround.inbox
      exact .inr ⟨s, method, args, id, rfl, hannouncing, hinbox⟩

theorem execute_turn (h : Orderly p) (transformer : Transformer) (files : FileTree) (i : Nat) :
    Turn p [] ((p.execute transformer i).run files).1 := by
  obtain hidle | ⟨s, method, args, id, hs, hannouncing, hinbox⟩ := h.idle_or_called i
  · rw [execute_idle hidle]
    exact .rest
  · rw [execute_call hs hannouncing hinbox]
    obtain ⟨result, error, hreply⟩ :=
      ofOutcome_eq id ((s.worker.call transformer method args).run files).1.1
    simp only [hreply]
    exact .execute _ result error hs hinbox

theorem deliver_cases (h : Orderly p) : p.mail = [] ∧ p.deliver = p ∨
    (∃ w result error id rest, p.mail = (w, .answer result error id) :: rest ∧
      p.deliver = { p with mail := rest }.complete w result error id) ∨
    ∃ w rest, p.mail = (w, .ready) :: rest ∧ p.deliver = { p with mail := rest }.workerReady w := by
  cases hmail : p.mail with
  | nil =>
    rw [deliver, hmail]
    exact .inl ⟨rfl, rfl⟩
  | cons m rest =>
    obtain ⟨w, m⟩ := m
    obtain ⟨s, -, -, -, ⟨⟨result, error, id, rfl⟩, -⟩ | ⟨rfl, -, -⟩⟩ := h.seat_of_mail hmail
    · exact .inr (.inl ⟨w, result, error, id, rest, rfl, by simp only [deliver, hmail]⟩)
    · exact .inr (.inr ⟨w, rest, rfl, by simp only [deliver, hmail, Message.ready, if_true]⟩)

theorem deliver_turn (h : Orderly p) : Turn p [] p.deliver := by
  obtain ⟨-, heq⟩ | ⟨w, result, error, id, rest, hmail, heq⟩ | ⟨w, rest, hmail, heq⟩ :=
    h.deliver_cases
  · rw [heq]
    exact .rest
  · rw [heq, complete, answer]
    split
    · next hpending => exact .drop hmail hpending
    · next hpending => exact .answer _ hmail hpending
  · rw [heq, workerReady]
    split_ifs with hclosed
    · exact .ignore hclosed hmail
    · have hopen : p.closed = false := by simpa using hclosed
      cases hqueue : p.queue with
      | nil =>
        have hturn := Turn.remember hopen hmail hqueue
        simpa [hqueue] using hturn
      | cons call more =>
        obtain ⟨s, hs, hinbox, -⟩ := h.seat_of_mail hmail
        have hturn := Turn.dequeue hopen hmail hqueue hs hinbox
        simp only [send, List.modify_eq_set_getElem?, hs]
        simpa [hinbox] using hturn

theorem shutdown_turn : Turn p [] p.shutdown := by
  rw [shutdown]
  split_ifs with hclosed
  · exact .rest
  · exact .shutdown (by simpa using hclosed)

theorem act_turn (h : Orderly p) {a : Action} (ha : ∀ method args, a ≠ .submitAll method args) :
    Turn p (p.accepts a) (p.act a) := by
  cases a with
  | submit method args => exact h.submit_turn method args
  | submitAll method args => exact absurd rfl (ha method args)
  | announce i => exact announce_turn i
  | execute transformer files i => exact h.execute_turn transformer files i
  | deliver => exact h.deliver_turn
  | shutdown => exact shutdown_turn

theorem of_seat (h : Orderly p) {s' : Seat} (hs : p.seats[w]? = some s)
    (hseats : p'.seats = p.seats.set w s') (hclosed : p'.closed = p.closed)
    (hround : Round p.closed s'.announcing s'.inbox (p'.transit w) (p'.ready.count w))
    (hother : ∀ i, i ≠ w → p'.transit i = p.transit i ∧ p'.ready.count i = p.ready.count i)
    (hmail : ∀ m ∈ p'.mail, m ∈ p.mail ∨ m.1 = w) (hready : ∀ i ∈ p'.ready, i ∈ p.ready ∨ i = w)
    (hcalls : ∀ m ∈ p'.queue, m ∈ p.queue) (hqueue : p'.queue ≠ [] → p'.ready = [])
    (hnil : p.closed = true → p'.ready = [] ∧ p'.queue = []) : Orderly p' where
  round {i t} hi := by
    rw [hclosed]
    rw [hseats, List.getElem?_set] at hi
    split_ifs at hi with hwi hlt
    · subst hwi
      cases hi
      exact hround
    · obtain ⟨htransit, hcount⟩ := hother i (Ne.symm hwi)
      rw [htransit, hcount]
      exact h.round hi
  mail {m} hm := by
    rw [hseats, List.length_set]
    obtain hm | hm := hmail m hm
    · exact h.mail hm
    · rw [hm]
      exact (List.getElem?_eq_some_iff.1 hs).1
  ready {i} hi := by
    rw [hseats, List.length_set]
    obtain hi | hi := hready i hi
    · exact h.ready hi
    · rw [hi]
      exact (List.getElem?_eq_some_iff.1 hs).1
  calls {m} hm := h.calls (hcalls m hm)
  queue := hqueue
  closed hc := hnil (hclosed ▸ hc)

theorem of_mail (h : Orderly p) (hmail : p.mail = (w, m) :: rest) (hs : p.seats[w]? = some s)
    (hseats : p'.seats = p.seats) (hclosed : p'.closed = p.closed) (hrest : p'.mail = rest)
    (hqueue : p'.queue = p.queue)
    (hround : Round p.closed s.announcing s.inbox ({ p with mail := rest }.transit w)
      (p'.ready.count w))
    (hready : p'.ready = p.ready ∨ p'.ready = p.ready ++ [w] ∧ p.queue = [] ∧ p.closed = false) :
    Orderly p' := by
  have htransit (i : Nat) : p'.transit i = { p with mail := rest }.transit i := by
    simp only [transit, hrest]
  have hset : p'.seats = p.seats.set w s := by
    obtain ⟨hlt, rfl⟩ := List.getElem?_eq_some_iff.1 hs
    rw [hseats, List.set_getElem_self]
  refine h.of_seat hs hset hclosed (htransit w ▸ hround) (fun i hi => ⟨?_, ?_⟩) (fun m hm => ?_)
    (fun i hi => ?_) (fun m hm => hqueue ▸ hm) ?_ ?_
  · rw [htransit, transit_cons_ne hmail hi]
  · obtain hready | ⟨hready, -⟩ := hready <;> simp [hready, hi.symm]
  · rw [hrest] at hm
    exact .inl (hmail ▸ List.mem_cons_of_mem _ hm)
  · obtain hready | ⟨hready, -⟩ := hready
    · exact .inl (hready ▸ hi)
    · simpa [hready] using hi
  · intro hne
    obtain hready | ⟨-, hnil, -⟩ := hready
    · rw [hready]
      exact h.queue (hqueue ▸ hne)
    · exact absurd (hqueue.trans hnil) hne
  · intro hc
    obtain hready | ⟨-, -, hopen⟩ := hready
    · rw [hready, hqueue]
      exact h.closed hc
    · rw [hopen] at hc
      cases hc

theorem turn (h : Orderly p) {new : List Message} (ht : Turn p new p') : Orderly p' := by
  cases ht with
  | rest => exact h
  | @hand w s rest method args hopen hready hs hinbox =>
    obtain ⟨s₀, hs₀, hannouncing, -, htransit, hcount⟩ := h.seat_of_ready (w := w) (by simp [hready])
    cases hs.symm.trans hs₀
    have hqueue : p.queue = [] := by
      by_contra hne
      simp [h.queue hne] at hready
    have hrest : rest.count w = 0 := by simpa [hready] using hcount
    refine h.of_seat hs rfl rfl ?_ (fun i hi => ⟨rfl, ?_⟩) (fun m hm => .inl hm) (fun i hi => ?_)
      (fun m hm => hm) (fun hne => absurd hqueue hne) ?_
    · simp only [hannouncing, hrest]
      exact htransit.symm ▸ .busy method args p.nextId
    · simp [hready, hi.symm]
    · exact .inl (hready ▸ List.mem_cons_of_mem _ hi)
    · simp [hopen]
  | enqueue method args hopen hready =>
    exact {
      round := h.round
      mail := h.mail
      ready := h.ready
      calls := fun hm => by
        obtain hm | hm := List.mem_append.1 hm
        · exact h.calls hm
        · exact ⟨method, args, p.nextId, List.mem_singleton.1 hm⟩
      queue := fun _ => hready
      closed := by simp [hopen] }
  | @announce i s hs hannouncing =>
    have hround := h.round hs
    rw [hannouncing] at hround
    generalize s.inbox = inbox, ht : p.transit i = t, hn : p.ready.count i = n at hround
    refine h.of_seat hs rfl rfl ?_ (fun j hj => ⟨?_, rfl⟩) (fun m hm => ?_) (fun j hj => .inl hj)
      (fun m hm => hm) h.queue h.closed
    · rw [transit_concat rfl, if_pos rfl]
      simp only [ht, hn]
      cases hround with
      | reporting hreply => exact .reported hreply
    · rw [transit_concat rfl, if_neg hj.symm, List.append_nil]
    · exact (List.mem_append.1 hm).imp_right fun hm => by rw [List.mem_singleton.1 hm]
  | @execute i s method args id worker result error hs hinbox =>
    have hround := h.round hs
    rw [hinbox] at hround
    obtain ⟨-, -, htransit, hcount, -⟩ := hround.inbox
    refine h.of_seat hs rfl rfl ?_ (fun j hj => ⟨?_, rfl⟩) (fun m hm => ?_) (fun j hj => .inl hj)
      (fun m hm => hm) h.queue h.closed
    · rw [transit_concat rfl, if_pos rfl, htransit]
      simp only [hcount]
      exact .reporting (.inr ⟨result, error, id, rfl⟩)
    · rw [transit_concat rfl, if_neg hj.symm, List.append_nil]
    · exact (List.mem_append.1 hm).imp_right fun hm => by rw [List.mem_singleton.1 hm]
  | answer _ hmail _ | drop hmail _ =>
    obtain ⟨s, hs, hinbox, hcount, ⟨-, hround⟩ | ⟨hm, -⟩⟩ := h.seat_of_mail hmail
    · rw [← hinbox, ← hcount] at hround
      exact h.of_mail hmail hs rfl rfl rfl rfl hround (.inl rfl)
    · cases hm
  | @dequeue w s rest call more hopen hmail hqueue hs hinbox =>
    obtain ⟨s₀, hs₀, -, hcount, ⟨⟨_, _, _, hm⟩, -⟩ | ⟨-, htransit, hannouncing⟩⟩ :=
      h.seat_of_mail hmail
    · cases hm
    cases hs.symm.trans hs₀
    obtain ⟨method, args, id, rfl⟩ := h.calls (m := call) (by simp [hqueue])
    have hready : p.ready = [] := h.queue (by simp [hqueue])
    refine h.of_seat hs rfl rfl ?_ (fun i hi => ⟨transit_cons_ne hmail hi, rfl⟩) (fun m hm => ?_)
      (fun i hi => .inl hi) (fun m hm => ?_) (fun _ => hready) (by simp [hopen])
    · simp only [hannouncing, hcount]
      exact htransit.symm ▸ .busy method args id
    · exact .inl (hmail ▸ List.mem_cons_of_mem _ hm)
    · exact hqueue ▸ List.mem_cons_of_mem _ hm
  | @remember w rest hopen hmail hqueue =>
    obtain ⟨s, hs, hinbox, hcount, ⟨⟨_, _, _, hm⟩, -⟩ | ⟨-, htransit, hannouncing⟩⟩ :=
      h.seat_of_mail hmail
    · cases hm
    refine h.of_mail hmail hs rfl rfl rfl rfl ?_ (.inr ⟨rfl, hqueue, hopen⟩)
    rw [htransit, hannouncing, hinbox, List.count_append, hcount, List.count_singleton_self]
    exact .idle
  | @ignore w rest hclosed hmail =>
    obtain ⟨s, hs, hinbox, hcount, ⟨⟨_, _, _, hm⟩, -⟩ | ⟨-, htransit, hannouncing⟩⟩ :=
      h.seat_of_mail hmail
    · cases hm
    refine h.of_mail hmail hs rfl rfl rfl rfl ?_ (.inl rfl)
    rw [htransit, hannouncing, hinbox, hcount]
    exact .retired hclosed
  | shutdown hopen =>
    exact {
      round := fun hs => (h.round hs).shutdown
      mail := h.mail
      ready := fun hi => by cases hi
      calls := fun hm => by cases hm
      queue := fun _ => rfl
      closed := fun _ => ⟨rfl, rfl⟩ }

theorem run (h : Orderly p) {P : List Message → Pool → Prop}
    (step : ∀ {calls new : List Message} {p p' : Pool}, Orderly p → Turn p new p' → P calls p →
      P (calls ++ new) p')
    (calls : List Message) (hp : P calls p) (schedule : List Action) :
    Orderly (schedule.foldl act p) ∧ P (calls ++ p.accepted schedule) (schedule.foldl act p) := by
  obtain ⟨single, hsingle, hpool, haccepted⟩ := exists_single p schedule
  rw [← hpool, ← haccepted]
  clear hpool haccepted
  induction single generalizing p calls with
  | nil => exact ⟨h, by simpa [accepted] using hp⟩
  | cons a single ih =>
    have ht := h.act_turn (hsingle a List.mem_cons_self)
    have hrest := ih (h.turn ht) _ (step h ht hp) fun b hb => hsingle b (List.mem_cons_of_mem _ hb)
    rw [List.append_assoc] at hrest
    exact hrest

end Orderly

end ClassForge.Pool
