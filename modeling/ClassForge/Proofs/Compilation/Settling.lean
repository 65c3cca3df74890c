import ClassForge.Proofs.Compilation.Calls
import Mathlib.Algebra.Ring.Nat
import Mathlib.Data.List.Perm.Subperm

/-!
# Pools that settle

The workers and the dispatcher of a pool take turns in any order, each on the files as they are then.
A turn does nothing or leaves less to be done, so taking turns comes to an end: then all reports have
been read, and all workers are ready.
-/

namespace ClassForge

def Seat.work (s : Seat) : Nat := 4 * s.inbox.length + if s.announcing then 2 else 0

namespace Pool

variable {p p' : Pool} {transformer : Transformer} {files files' : FileTree}

/-! ## Turns in any order -/

inductive Step where
  | announce (i : Nat)
  | execute (i : Nat)
  | deliver

def step (transformer : Transformer) (p : Pool) : Step → StateM FileTree Pool
  | .announce i => return p.announce i
  | .execute i => p.execute transformer i
  | .deliver => return p.deliver

def steps (transformer : Transformer) : List Step → Pool → StateM FileTree Pool
  | [], p => return p
  | a :: order, p => do steps transformer order (← p.step transformer a)

theorem run_steps_cons (a : Step) (order : List Step) (p : Pool) (files : FileTree) :
    (steps transformer (a :: order) p).run files =
      let next := (p.step transformer a).run files
      (steps transformer order next.1).run next.2 := rfl

def returned (worker : Nat) (method : String) (result : Option Datum) :
    (error : Option String) → Except PoolError Datum
  | some m => .error (.method worker method m)
  | none => .ok (result.getD (.ofJson .null))

inductive Moves (transformer : Transformer) (p : Pool) (files : FileTree) : Pool → FileTree → Prop
  | announce {i : Nat} {s : Seat} (hs : p.seats[i]? = some s) (h : s.announcing = true) :
      Moves transformer p files
        { p with
          seats := p.seats.set i { s with announcing := false }
          mail := p.mail ++ [(i, .ready)] }
        files
  | execute {i : Nat} {s : Seat} {method : String} {args : List Datum} {id : UInt64}
      {outcome : Except String Datum} {worker : Worker} {files' : FileTree}
      (hs : p.seats[i]? = some s) (hannouncing : s.announcing = false)
      (hinbox : s.inbox = [.call method args id])
      (hcall : (s.worker.call transformer method args).run files = ((outcome, worker), files')) :
      Moves transformer p files
        { p with
          seats := p.seats.set i { worker, inbox := [], announcing := true }
          mail := p.mail ++ [(i, .ofOutcome id outcome)] }
        files'
  | answer {w : Nat} {result : Option Datum} {error : Option String} {id : UInt64}
      {rest : List (Nat × Message)} {method : String}
      (hmail : p.mail = (w, .answer result error id) :: rest)
      (hpending : p.pending.lookup id = some method) :
      Moves transformer p files
        { p with
          mail := rest
          pending := p.pending.filter (·.1 ≠ id)
          answers := (id, returned w method result error) :: p.answers }
        files
  | drop {w : Nat} {result : Option Datum} {error : Option String} {id : UInt64}
      {rest : List (Nat × Message)} (hmail : p.mail = (w, .answer result error id) :: rest)
      (hpending : p.pending.lookup id = none) :
      Moves transformer p files { p with mail := rest } files
  | dequeue {w : Nat} {s : Seat} {rest : List (Nat × Message)} {call : Message}
      {more : List Message} (hmail : p.mail = (w, .ready) :: rest) (hqueue : p.queue = call :: more)
      (hs : p.seats[w]? = some s) (hinbox : s.inbox = []) :
      Moves transformer p files
        { p with
          mail := rest
          queue := more
          seats := p.seats.set w { s with inbox := [call] } }
        files
  | remember {w : Nat} {rest : List (Nat × Message)} (hmail : p.mail = (w, .ready) :: rest)
      (hqueue : p.queue = []) :
      Moves transformer p files { p with mail := rest, ready := p.ready ++ [w] } files

theorem Moves.turn (h : Moves transformer p files p' files') (hopen : p.closed = false) :
    Turn p [] p' := by
  cases h with
  | announce hs h => exact .announce hs h
  | @execute i s method args id outcome worker _ hs _ hinbox hcall =>
    obtain ⟨result, error, hreply⟩ := ofOutcome_eq id outcome
    rw [hreply]
    exact .execute worker result error hs hinbox
  | answer hmail hpending => exact .answer _ hmail hpending
  | drop hmail hpending => exact .drop hmail hpending
  | dequeue hmail hqueue hs hinbox => exact .dequeue hopen hmail hqueue hs hinbox
  | remember hmail hqueue => exact .remember hopen hmail hqueue

theorem Moves.closed_eq (h : Moves transformer p files p' files') : p'.closed = p.closed := by
  cases h <;> rfl

theorem Moves.length_seats (h : Moves transformer p files p' files') :
    p'.seats.length = p.seats.length := by
  cases h with
  | announce | execute | dequeue => exact List.length_set
  | answer | drop | remember => rfl

theorem announce_moves {i : Nat} {s : Seat} (hs : p.seats[i]? = some s) (h : s.announcing = true) :
    Moves transformer p files (p.announce i) files := by
  simp only [announce, hs, h, ↓reduceIte]
  exact .announce hs h

theorem execute_moves {i : Nat} {s : Seat} {method : String} {args : List Datum} {id : UInt64}
    (hs : p.seats[i]? = some s) (hannouncing : s.announcing = false)
    (hinbox : s.inbox = [.call method args id]) :
    let done := (p.execute transformer i).run files
    Moves transformer p files done.1 done.2 := by
  simp only [execute, hs, hannouncing, hinbox]
  exact .execute hs hannouncing hinbox rfl

theorem Orderly.deliver_moves (h : Orderly p) (hopen : p.closed = false) (hmail : p.mail ≠ []) :
    Moves transformer p files p.deliver files := by
  obtain ⟨hnone, -⟩ | ⟨w, result, error, id, rest, hmail, heq⟩ | ⟨w, rest, hmail, heq⟩ :=
    h.deliver_cases
  · exact absurd hnone hmail
  · rw [heq, complete, answer]
    split
    · next hpending => exact .drop hmail hpending
    · next method hpending =>
      cases error with
      | none => exact .answer hmail hpending
      | some m => exact .answer hmail hpending
  · rw [heq, workerReady, if_neg (by simp [hopen])]
    cases hqueue : p.queue with
    | nil => simpa only [hqueue] using Moves.remember hmail hqueue
    | cons call more =>
      obtain ⟨s, hs, hinbox, -⟩ := h.seat_of_mail hmail
      have hmoves : Moves transformer p files _ files := .dequeue hmail hqueue hs hinbox
      simp only [send, List.modify_eq_set_getElem?, hs]
      simpa [hinbox] using hmoves

theorem Orderly.step_cases (h : Orderly p) (hopen : p.closed = false) (transformer : Transformer)
    (files : FileTree) (a : Step) :
    (p.step transformer a).run files = (p, files) ∨
      Moves transformer p files ((p.step transformer a).run files).1
        ((p.step transformer a).run files).2 := by
  cases a with
  | announce i =>
    cases hs : p.seats[i]? with
    | none =>
      simp only [step, announce, hs]
      exact .inl rfl
    | some s =>
      cases hannouncing : s.announcing with
      | true => exact .inr (announce_moves hs hannouncing)
      | false =>
        simp only [step, announce, hs, hannouncing]
        exact .inl rfl
  | execute i =>
    obtain hidle | ⟨s, _, _, _, hs, hannouncing, hinbox⟩ := h.idle_or_called i
    · exact .inl (execute_idle hidle)
    · exact .inr (execute_moves hs hannouncing hinbox)
  | deliver =>
    by_cases hmail : p.mail = []
    · simp only [step, deliver, hmail]
      exact .inl rfl
    · exact .inr (h.deliver_moves hopen hmail)

theorem Orderly.steps_kept {I : Pool → FileTree → Prop}
    (kept : ∀ {p files p' files'}, Orderly p → Moves transformer p files p' files' → I p files →
      I p' files')
    (h : Orderly p) (hopen : p.closed = false) (hp : I p files) (order : List Step) :
    let done := (steps transformer order p).run files
    Orderly done.1 ∧ done.1.closed = false ∧ I done.1 done.2 := by
  induction order generalizing p files with
  | nil => exact ⟨h, hopen, hp⟩
  | cons a order ih =>
    rw [run_steps_cons]
    obtain hidle | hmoves := h.step_cases hopen transformer files a
    · rw [hidle]
      exact ih h hopen hp
    · exact ih (h.turn (hmoves.turn hopen)) (hmoves.closed_eq.trans hopen) (kept h hmoves hp)

/-! ## What is left to be done -/

theorem work_eq (p : Pool) :
    p.work = 5 * p.queue.length + p.mail.length + (p.seats.map Seat.work).sum := by
  rw [work]
  generalize 5 * p.queue.length + p.mail.length = n
  induction p.seats generalizing n with
  | nil => rfl
  | cons s seats ih =>
    rw [List.foldl_cons, ih, List.map_cons, List.sum_cons, Seat.work]
    omega

theorem sum_work_set {seats : List Seat} {w : Nat} {s : Seat} (hs : seats[w]? = some s) (s' : Seat) :
    ((seats.set w s').map Seat.work).sum + s.work = (seats.map Seat.work).sum + s'.work := by
  have hsum := (perm_flatMap_set (fun s => [s.work]) hs s').sum_nat
  simpa only [← List.map_eq_flatMap, List.sum_append, List.sum_singleton] using hsum

theorem Moves.work_lt (h : Moves transformer p files p' files') : p'.work < p.work := by
  rw [work_eq, work_eq]
  cases h with
  | @announce i s hs h =>
    have hset := sum_work_set hs { s with announcing := false }
    simp only [Seat.work, h, ↓reduceIte, Bool.false_eq_true] at hset
    simp only [List.length_append, List.length_singleton]
    omega
  | @execute i s _ _ _ _ worker _ hs hannouncing hinbox hcall =>
    have hset := sum_work_set hs { worker, inbox := [], announcing := true }
    simp only [Seat.work, hannouncing, hinbox, List.length_singleton, List.length_nil, ↓reduceIte,
      Bool.false_eq_true] at hset
    simp only [List.length_append, List.length_singleton]
    omega
  | answer hmail _ | drop hmail _ | remember hmail _ =>
    simp only [hmail, List.length_cons]
    omega
  | @dequeue w s _ call _ hmail hqueue hs hinbox =>
    have hset := sum_work_set hs { s with inbox := [call] }
    simp only [Seat.work, hinbox, List.length_singleton, List.length_nil] at hset
    simp only [hmail, hqueue, List.length_cons]
    omega

structure Quiet (p : Pool) : Prop where
  mail : p.mail = []
  seat : ∀ s ∈ p.seats, s.announcing = false ∧ s.inbox = []

theorem Orderly.turn_cases (h : Orderly p) (hopen : p.closed = false) (transformer : Transformer)
    (files : FileTree) :
    p.Quiet ∧ p.turn transformer = pure p ∨
      ∃ a, p.turn transformer = p.step transformer a ∧
        Moves transformer p files ((p.step transformer a).run files).1
          ((p.step transformer a).run files).2 := by
  rw [Pool.turn]
  cases hmail : p.mail with
  | cons m rest =>
    exact .inr ⟨.deliver, rfl, h.deliver_moves hopen (by simp [hmail])⟩
  | nil =>
    cases hannouncing : p.seats.findIdx? (·.announcing) with
    | some i =>
      obtain ⟨hlt, hs, -⟩ := List.findIdx?_eq_some_iff_getElem.1 hannouncing
      exact .inr ⟨.announce i, rfl, announce_moves (List.getElem?_eq_getElem hlt) hs⟩
    | none =>
      have hnone := List.findIdx?_eq_none_iff.1 hannouncing
      cases hinbox : p.seats.findIdx? (!·.inbox.isEmpty) with
      | some i =>
        obtain ⟨hlt, hs, -⟩ := List.findIdx?_eq_some_iff_getElem.1 hinbox
        cases hcalls : p.seats[i].inbox with
        | nil => simp [hcalls] at hs
        | cons call rest =>
          have hround := h.round (List.getElem?_eq_getElem hlt)
          rw [hcalls] at hround
          obtain ⟨-, rfl, -, -, method, args, id, rfl⟩ := hround.inbox
          exact .inr ⟨.execute i, rfl, execute_moves (List.getElem?_eq_getElem hlt)
            (hnone _ (List.getElem_mem hlt)) hcalls⟩
      | none =>
        refine .inl ⟨⟨hmail, fun s hs => ⟨hnone s hs, ?_⟩⟩, rfl⟩
        simpa using List.findIdx?_eq_none_iff.1 hinbox s hs

theorem run_turns_of_idle (hidle : p.turn transformer = pure p) (n : Nat) (files : FileTree) :
    (turns transformer n p).run files = (p, files) := by
  induction n with
  | zero => rfl
  | succ n ih =>
    rw [turns, hidle]
    exact ih

theorem Orderly.turns_quiet (h : Orderly p) (hopen : p.closed = false) (transformer : Transformer)
    {n : Nat} (hn : p.work ≤ n) (files : FileTree) :
    ((turns transformer n p).run files).1.Quiet ∧
      ∃ order, (turns transformer n p).run files = (steps transformer order p).run files := by
  induction n generalizing p files with
  | zero =>
    obtain ⟨hquiet, -⟩ | ⟨a, -, hmoves⟩ := h.turn_cases hopen transformer files
    · exact ⟨hquiet, [], rfl⟩
    · have := hmoves.work_lt
      omega
  | succ n ih =>
    obtain ⟨hquiet, hidle⟩ | ⟨a, heq, hmoves⟩ := h.turn_cases hopen transformer files
    · rw [run_turns_of_idle hidle]
      exact ⟨hquiet, [], rfl⟩
    · have hlt := hmoves.work_lt
      have hturns : (turns transformer (n + 1) p).run files =
          let next := (p.step transformer a).run files
          (turns transformer n next.1).run next.2 := by
        rw [← heq]
        rfl
      obtain ⟨hquiet, order, hsteps⟩ := ih (h.turn (hmoves.turn hopen))
        (hmoves.closed_eq.trans hopen) (by omega) ((p.step transformer a).run files).2
      rw [hturns]
      exact ⟨hquiet, a :: order, hsteps⟩

theorem Orderly.settle_quiet (h : Orderly p) (hopen : p.closed = false) (transformer : Transformer)
    (files : FileTree) :
    ∃ order, (p.settle transformer).run files = (steps transformer order p).run files ∧
      ((steps transformer order p).run files).1.Quiet := by
  obtain ⟨hquiet, order, hsteps⟩ := h.turns_quiet hopen transformer (Nat.le_refl _) files
  exact ⟨order, hsteps, hsteps ▸ hquiet⟩

/-! ## Quiet pools -/

theorem Quiet.mem_ready (hquiet : p.Quiet) (h : Orderly p) (hopen : p.closed = false) {i : Nat} :
    i ∈ p.ready ↔ i < p.seats.length := by
  refine ⟨h.ready, fun hlt => List.count_pos_iff.1 ?_⟩
  obtain ⟨hannouncing, hinbox⟩ := hquiet.seat _ (List.getElem_mem hlt)
  have htransit : p.transit i = [] := by rw [transit, hquiet.mail, List.filterMap_nil]
  have hround := h.round (List.getElem?_eq_getElem hlt)
  rw [hannouncing, hinbox, hopen] at hround
  generalize p.ready.count i = n, p.transit i = t at hround htransit
  cases hround with
  | reported hreply => simp at htransit
  | idle => exact Nat.one_pos
  | retired hclosed => cases hclosed

theorem Quiet.queue_eq_nil (hquiet : p.Quiet) (h : Orderly p) (hopen : p.closed = false)
    (hseats : p.seats ≠ []) : p.queue = [] := by
  by_contra hqueue
  have hfirst := (hquiet.mem_ready h hopen).2 (List.length_pos_iff.2 hseats)
  rw [h.queue hqueue] at hfirst
  cases hfirst

theorem Quiet.exists_submitAll (hquiet : p.Quiet) (h : Orderly p) (hopen : p.closed = false)
    (method : String) (args : List Datum) :
    ∃ ids p', p.submitAll method args = (.ok ids, p') := by
  have hready : p.size ≤ p.ready.length := by
    have hsubset : List.range p.size ⊆ p.ready := fun i hi =>
      (hquiet.mem_ready h hopen).2 (List.mem_range.1 hi)
    have hle := (List.subperm_of_subset List.nodup_range hsubset).length_le
    rwa [List.length_range] at hle
  rw [submitAll, if_neg (by simp [hopen]), if_neg (Nat.not_lt.2 hready)]
  exact ⟨_, _, rfl⟩

end Pool

end ClassForge
