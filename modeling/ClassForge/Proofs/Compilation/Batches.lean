import ClassForge.Proofs.Compilation.Broadcast
import ClassForge.Proofs.Compilation.Settling

/-!
# Calls that are made at once

A batch is one call for one worker, or the same call for every worker. If every worker does it alike,
then in whatever order turns are taken, its callers get the same answers. When all of them are answered,
no call is on its way any more.
-/

namespace ClassForge.Pool

variable {p p' : Pool} {transformer : Transformer} {files files' : FileTree} {s : Seat} {w : Nat}
  {id : UInt64} {method : String} {args : List Datum} {result : Option Datum} {error : Option String}
  {call : Message} {i : Nat} {rest : List (Nat × Message)} {outcome : Except String Datum}

/-! ## Calls on their way -/

def todo (p : Pool) : List Message := p.queue ++ p.seats.flatMap (·.inbox)

theorem perm_todo_set (hs : p.seats[w]? = some s) (s' : Seat) :
    ({ p with seats := p.seats.set w s' }.todo ++ s.inbox).Perm (p.todo ++ s'.inbox) := by
  simp only [todo, List.append_assoc]
  exact (perm_flatMap_set _ hs s').append_left p.queue

theorem perm_todo_announce (hs : p.seats[i]? = some s) :
    { p with seats := p.seats.set i { s with announcing := false } }.todo.Perm p.todo :=
  (List.perm_append_right_iff _).1 (perm_todo_set hs { s with announcing := false })

theorem perm_todo_execute (hs : p.seats[i]? = some s) (hinbox : s.inbox = [call]) (worker : Worker) :
    let done : Seat := { worker, inbox := [], announcing := true }
    p.todo.Perm (call :: { p with seats := p.seats.set i done }.todo) := by
  have hperm := perm_todo_set hs { worker, inbox := [], announcing := true }
  rw [hinbox, List.append_nil] at hperm
  exact hperm.symm.trans List.perm_append_comm

theorem perm_todo_dequeue {more : List Message} (hqueue : p.queue = call :: more)
    (hs : p.seats[w]? = some s) (hinbox : s.inbox = []) :
    { p with queue := more, seats := p.seats.set w { s with inbox := [call] } }.todo.Perm p.todo := by
  have hperm := perm_todo_set hs { s with inbox := [call] }
  have hcons : { p with seats := p.seats.set w { s with inbox := [call] } }.todo =
      call :: { p with queue := more, seats := p.seats.set w { s with inbox := [call] } }.todo := by
    simp only [todo, hqueue, List.cons_append]
  rw [hinbox, List.append_nil, hcons] at hperm
  exact (hperm.trans List.perm_append_comm).cons_inv

/-- The numbers of the calls that have not been done, or whose returns have not been read. -/
def places (p : Pool) : List UInt64 := p.todo.filterMap Message.callId? ++ p.returning

theorem places_of_mail (hmail : p.mail = (w, .answer result error id) :: rest) :
    p.places.Perm (id :: { p with mail := rest }.places) := by
  simp only [places, returning, hmail, List.filterMap_cons, Message.answeredId?]
  exact List.perm_middle

/-- A turn moves a call on, or reads its return and takes its number out. -/
theorem Moves.places_cases (h : Moves transformer p files p' files') :
    p'.places.Perm p.places ∧ p'.pending = p.pending ∨
      ∃ id, p.places.Perm (id :: p'.places) ∧ p'.pending = p.pending.filter (·.1 ≠ id) := by
  cases h with
  | @announce i s hs h =>
    refine .inl ⟨((perm_todo_announce hs).filterMap _).append (.of_eq ?_), rfl⟩
    simp [returning, Message.ready, Message.answeredId?]
  | @execute i s method args id outcome worker _ hs hannouncing hinbox hcall =>
    have hreturning : returning { p with
        seats := p.seats.set i { worker, inbox := [], announcing := true }
        mail := p.mail ++ [(i, .ofOutcome id outcome)] } = p.returning ++ [id] := by
      obtain ⟨result, error, hreply⟩ := ofOutcome_eq id outcome
      simp [returning, hreply, Message.answeredId?]
    refine .inl ⟨?_, rfl⟩
    rw [places, hreturning, ← List.append_assoc]
    have hids := (perm_todo_execute hs hinbox worker).filterMap Message.callId?
    exact List.perm_append_comm.trans (hids.symm.append_right p.returning)
  | @answer w result error id rest method hmail hpending =>
    exact .inr ⟨id, places_of_mail hmail, rfl⟩
  | @drop w result error id rest hmail hpending =>
    refine .inr ⟨id, places_of_mail hmail, (List.filter_eq_self.2 fun c hc => ?_).symm⟩
    have hne : c.1 ≠ id := fun heq =>
      not_mem_unanswered_of_lookup hpending (heq ▸ List.mem_map_of_mem hc)
    simpa using hne
  | @dequeue w s rest call more hmail hqueue hs hinbox =>
    refine .inl ⟨((perm_todo_dequeue hqueue hs hinbox).filterMap _).append (.of_eq ?_), rfl⟩
    simp [returning, hmail, Message.ready, Message.answeredId?]
  | remember hmail hqueue =>
    refine .inl ⟨.append (.refl _) (.of_eq ?_), rfl⟩
    simp [returning, hmail, Message.ready, Message.answeredId?]

structure Balanced (p : Pool) : Prop where
  nodup : p.places.Nodup
  perm : p.unanswered.Perm p.places

theorem Balanced.move (h : Balanced p) (hmoves : Moves transformer p files p' files') : Balanced p' := by
  obtain ⟨hplaces, hpending⟩ | ⟨id, hplaces, hpending⟩ := hmoves.places_cases
  · refine ⟨hplaces.nodup_iff.2 h.nodup, ?_⟩
    rw [unanswered, hpending]
    exact h.perm.trans hplaces.symm
  · obtain ⟨hnot, hnodup⟩ := List.nodup_cons.1 (hplaces.nodup_iff.1 h.nodup)
    have hkept : (id :: p'.places).filter (· ≠ id) = p'.places := by
      rw [List.filter_cons_of_neg (by simp)]
      exact List.filter_eq_self.2 fun x hx => by
        simpa using fun heq : x = id => hnot (heq ▸ hx)
    have hunanswered : p'.unanswered = p.unanswered.filter (· ≠ id) := by
      rw [unanswered, hpending, unanswered, List.filter_map]
      rfl
    refine ⟨hnodup, ?_⟩
    rw [hunanswered, ← hkept]
    exact (h.perm.trans hplaces).filter _

/-! ## Calls that are made at once -/

/-- Calls of one method that are made at once: what every worker answers, what holds of a worker before
and after, and the files before and after. -/
structure Batch where
  method : String
  args : List Datum
  outcome : Except String Datum
  before : Worker → Prop
  after : Worker → Prop
  start : FileTree
  final : FileTree

namespace Batch

def Works (b : Batch) (transformer : Transformer) : Prop :=
  ∀ w, b.before w → ∃ w', b.after w' ∧
    (w.call transformer b.method b.args).run b.start = ((b.outcome, w'), b.final)

def answer (b : Batch) (worker : Nat) : Except PoolError Datum :=
  b.outcome.mapError (.method worker b.method)

end Batch

variable {b : Batch} {ids : List UInt64}

structure Worked (b : Batch) (p : Pool) (files : FileTree) : Prop where
  calls : ∀ m ∈ p.todo, ∃ id, m = .call b.method b.args id
  files_eq : files = if p.todo = [] then b.final else b.start
  alone : p.todo.length ≤ 1 ∨ b.start = b.final
  free : ∀ s ∈ p.seats, s.inbox = [] → b.after s.worker
  busy : ∀ s ∈ p.seats, s.inbox ≠ [] → b.before s.worker
  queue : p.queue ≠ [] → ∀ w, b.after w → b.before w

theorem Worked.of_perm (h : Worked b p files) (hperm : p'.todo.Perm p.todo)
    (hfree : ∀ s ∈ p'.seats, s.inbox = [] → b.after s.worker)
    (hbusy : ∀ s ∈ p'.seats, s.inbox ≠ [] → b.before s.worker)
    (hqueue : p'.queue ≠ [] → p.queue ≠ []) : Worked b p' files where
  calls m hm := h.calls m (hperm.mem_iff.1 hm)
  files_eq := by
    have hnil : p'.todo = [] ↔ p.todo = [] := by
      rw [← List.length_eq_zero_iff, hperm.length_eq, List.length_eq_zero_iff]
    simp only [hnil]
    exact h.files_eq
  alone := hperm.length_eq ▸ h.alone
  free := hfree
  busy := hbusy
  queue hne := h.queue (hqueue hne)

theorem mem_todo {m : Message} (hs : p.seats[i]? = some s) (hm : m ∈ s.inbox) : m ∈ p.todo :=
  List.mem_append_right _ (List.mem_flatMap.2 ⟨s, List.mem_of_getElem? hs, hm⟩)

theorem Worked.call_eq (h : Worked b p files) (hworks : b.Works transformer) {worker : Worker}
    (hs : p.seats[i]? = some s) (hinbox : s.inbox = [.call method args id])
    (hcall : (s.worker.call transformer method args).run files = ((outcome, worker), files')) :
    outcome = b.outcome ∧ b.after worker ∧ files' = b.final := by
  have hmem : .call method args id ∈ p.todo := mem_todo hs (by simp [hinbox])
  obtain ⟨_, heq⟩ := h.calls _ hmem
  cases heq
  have hstart : files = b.start := by
    rw [h.files_eq, if_neg (List.ne_nil_of_mem hmem)]
  obtain ⟨w', hafter, hdone⟩ := hworks s.worker (h.busy s (List.mem_of_getElem? hs) (by simp [hinbox]))
  rw [hstart, hdone] at hcall
  cases hcall
  exact ⟨rfl, hafter, rfl⟩

theorem Worked.move (h : Worked b p files) (hworks : b.Works transformer)
    (hmoves : Moves transformer p files p' files') : Worked b p' files' := by
  cases hmoves with
  | @announce i s hs hannouncing =>
    refine h.of_perm (perm_todo_announce hs) (fun t ht => ?_) (fun t ht => ?_) id
    · obtain ht | rfl := List.mem_or_eq_of_mem_set ht
      · exact h.free t ht
      · exact h.free s (List.mem_of_getElem? hs)
    · obtain ht | rfl := List.mem_or_eq_of_mem_set ht
      · exact h.busy t ht
      · exact h.busy s (List.mem_of_getElem? hs)
  | @execute i s method args id outcome worker _ hs hannouncing hinbox hcall =>
    obtain ⟨-, hafter, rfl⟩ := h.call_eq hworks hs hinbox hcall
    have hperm := perm_todo_execute hs hinbox worker
    refine ⟨fun m hm => h.calls m (hperm.mem_iff.2 (List.mem_cons_of_mem _ hm)), ?_, ?_,
      fun t ht hfree => ?_, fun t ht hbusy => ?_, h.queue⟩
    · split_ifs with hnil
      · rfl
      · refine (h.alone.resolve_left fun hle => hnil ?_).symm
        rw [hperm.length_eq, List.length_cons] at hle
        exact List.length_eq_zero_iff.1 (Nat.le_zero.1 (Nat.le_of_succ_le_succ hle))
    · refine h.alone.imp_left fun hle => ?_
      rw [hperm.length_eq, List.length_cons] at hle
      exact Nat.le_of_succ_le hle
    · obtain ht | rfl := List.mem_or_eq_of_mem_set ht
      · exact h.free t ht hfree
      · exact hafter
    · obtain ht | rfl := List.mem_or_eq_of_mem_set ht
      · exact h.busy t ht hbusy
      · exact absurd rfl hbusy
  | answer | drop | remember => exact h.of_perm (.refl _) h.free h.busy id
  | @dequeue w s rest call more hmail hqueue hs hinbox =>
    have hne : p.queue ≠ [] := by simp [hqueue]
    refine h.of_perm (perm_todo_dequeue hqueue hs hinbox) (fun t ht hfree => ?_)
      (fun t ht hbusy => ?_) fun _ => hne
    · obtain ht | rfl := List.mem_or_eq_of_mem_set ht
      · exact h.free t ht hfree
      · cases hfree
    · obtain ht | rfl := List.mem_or_eq_of_mem_set ht
      · exact h.busy t ht hbusy
      · exact h.queue hne s.worker (h.free s (List.mem_of_getElem? hs) hinbox)

structure Reported (b : Batch) (ids : List UInt64) (p : Pool) : Prop where
  mail : ∀ m ∈ p.mail, m.2 = .ready ∨ ∃ id, m.2 = .ofOutcome id b.outcome
  pending : ∀ c ∈ p.pending, c.1 ∈ ids ∧ c.2 = b.method
  answered : ∀ id ∈ ids, id ∈ p.unanswered ∨ ∃ w, p.answer? id = some (b.answer w)

theorem Reported.of_mail (h : Reported b ids p)
    (hmail : ∀ m ∈ p'.mail, m ∈ p.mail ∨ m.2 = .ready ∨ ∃ id, m.2 = .ofOutcome id b.outcome)
    (hpending : p'.pending = p.pending) (hanswers : p'.answers = p.answers) : Reported b ids p' where
  mail m hm := (hmail m hm).elim (h.mail m) id
  pending := hpending ▸ h.pending
  answered := by
    simp only [unanswered, answer?, hpending, hanswers]
    exact h.answered

theorem returned_of_ofOutcome {id id' : UInt64}
    (h : Message.answer result error id = .ofOutcome id' outcome) :
    returned w method result error = outcome.mapError (.method w method) := by
  cases outcome <;> cases h <;> rfl

theorem Reported.answer (h : Reported b ids p)
    (hmail : p.mail = (w, .answer result error id) :: rest)
    (hpending : p.pending.lookup id = some method) :
    Reported b ids
      { p with
        mail := rest
        pending := p.pending.filter (·.1 ≠ id)
        answers := (id, returned w method result error) :: p.answers } where
  mail m hm := h.mail m (hmail ▸ List.mem_cons_of_mem _ hm)
  pending c hc := h.pending c (List.mem_filter.1 hc).1
  answered x hx := by
    by_cases heq : x = id
    · subst heq
      obtain ⟨l₁, l₂, hl, -⟩ := List.lookup_eq_some_iff.1 hpending
      obtain ⟨-, rfl⟩ := h.pending (x, method) (by simp [hl])
      obtain hready | ⟨_, hreply⟩ := h.mail (w, .answer result error x) (hmail ▸ List.mem_cons_self)
      · cases hready
      · refine .inr ⟨w, ?_⟩
        rw [answer?, List.lookup_cons_self, returned_of_ofOutcome hreply]
        rfl
    · refine (h.answered x hx).imp (fun hmem => ?_) fun ⟨v, hv⟩ => ⟨v, ?_⟩
      · obtain ⟨c, hc, rfl⟩ := List.mem_map.1 hmem
        exact List.mem_map.2 ⟨c, List.mem_filter.2 ⟨hc, by simpa using heq⟩, rfl⟩
      · rw [answer?, List.lookup_cons, beq_false_of_ne heq]
        exact hv

theorem Reported.move (h : Reported b ids p) (hworked : Worked b p files)
    (hworks : b.Works transformer) (hmoves : Moves transformer p files p' files') :
    Reported b ids p' := by
  cases hmoves with
  | announce hs hannouncing =>
    refine h.of_mail (fun m hm => ?_) rfl rfl
    exact (List.mem_append.1 hm).imp_right fun hm => .inl (by rw [List.mem_singleton.1 hm])
  | @execute i s method args id outcome worker _ hs hannouncing hinbox hcall =>
    obtain ⟨rfl, -, -⟩ := hworked.call_eq hworks hs hinbox hcall
    refine h.of_mail (fun m hm => ?_) rfl rfl
    exact (List.mem_append.1 hm).imp_right fun hm => .inr ⟨id, by rw [List.mem_singleton.1 hm]⟩
  | answer hmail hpending => exact h.answer hmail hpending
  | drop hmail _ | dequeue hmail _ _ _ | remember hmail _ =>
    exact h.of_mail (fun m hm => .inl (hmail ▸ List.mem_cons_of_mem _ hm)) rfl rfl

structure Underway (b : Batch) (ids : List UInt64) (p : Pool) (files : FileTree) : Prop where
  balanced : Balanced p
  worked : Worked b p files
  reported : Reported b ids p

theorem Underway.move (h : Underway b ids p files) (hworks : b.Works transformer)
    (hmoves : Moves transformer p files p' files') : Underway b ids p' files' where
  balanced := h.balanced.move hmoves
  worked := h.worked.move hworks hmoves
  reported := h.reported.move h.worked hworks hmoves

theorem mem_places_of_todo (h : .call method args id ∈ p.todo) : id ∈ p.places :=
  List.mem_append_left _ (List.mem_filterMap.2 ⟨_, h, rfl⟩)

/-! ## Pools at rest -/

structure Resting (s : Snapshot) (p : Pool) : Prop where
  orderly : Orderly p
  opened : p.closed = false
  seats : p.seats ≠ []
  size : p.seats.length ≤ UInt64.size
  todo : p.todo = []
  mail : ∀ m ∈ p.mail, m.2 = .ready
  pending : p.pending = []
  snapshot : ∀ t ∈ p.seats, t.worker.snapshot = s

variable {s : Snapshot}

theorem resting_ofSize (workers : UInt64) : Resting {} (ofSize workers.toNat) where
  orderly := orderly_ofSize _
  opened := rfl
  seats := by simp [ofSize]
  size := by
    have := workers.toNat_lt_size
    simp only [ofSize, List.length_map, List.length_range]
    omega
  todo := by
    refine List.append_eq_nil_iff.2 ⟨rfl, List.flatMap_eq_nil_iff.2 fun t ht => ?_⟩
    obtain ⟨i, -, rfl⟩ := List.mem_map.1 ht
    rfl
  mail m hm := by cases hm
  pending := rfl
  snapshot t ht := by
    obtain ⟨i, -, rfl⟩ := List.mem_map.1 ht
    rfl

theorem Resting.inbox (h : Resting s p) {t : Seat} (ht : t ∈ p.seats) : t.inbox = [] :=
  List.flatMap_eq_nil_iff.1 (List.append_eq_nil_iff.1 h.todo).2 t ht

theorem Resting.move (h : Resting s p) (hmoves : Moves transformer p files p' files') :
    Resting s p' ∧ files' = files := by
  have horderly := h.orderly.turn (hmoves.turn h.opened)
  cases hmoves with
  | @announce i t ht hannouncing =>
    refine ⟨⟨horderly, h.opened, by simpa using h.seats, by simpa using h.size, ?_, fun m hm => ?_,
      h.pending, fun u hu => ?_⟩, rfl⟩
    · exact List.Perm.eq_nil (h.todo ▸ perm_todo_announce ht)
    · obtain hm | hm := List.mem_append.1 hm
      · exact h.mail m hm
      · rw [List.mem_singleton.1 hm]
    · obtain hu | rfl := List.mem_or_eq_of_mem_set hu
      · exact h.snapshot u hu
      · exact h.snapshot t (List.mem_of_getElem? ht)
  | execute ht _ hinbox _ => simp [h.inbox (List.mem_of_getElem? ht)] at hinbox
  | answer hmail _ | drop hmail _ => cases h.mail _ (hmail ▸ List.mem_cons_self)
  | dequeue _ hqueue _ _ => simp [(List.append_eq_nil_iff.1 h.todo).1] at hqueue
  | remember hmail _ =>
    exact ⟨⟨horderly, h.opened, h.seats, h.size, h.todo,
      fun m hm => h.mail m (hmail ▸ List.mem_cons_of_mem _ hm), h.pending, h.snapshot⟩, rfl⟩

theorem Resting.steps (h : Resting s p) (transformer : Transformer) (order : List Step)
    (files : FileTree) :
    let done := (steps transformer order p).run files
    Resting s done.1 ∧ done.2 = files := by
  refine (h.orderly.steps_kept (I := fun q t => Resting s q ∧ t = files)
    (fun _ hmoves hq => ?_) h.opened ⟨h, rfl⟩ order).2.2
  obtain ⟨hrest, rfl⟩ := hq
  exact hrest.move hmoves

theorem Underway.resting (h : Underway b ids p files) (ho : Orderly p) (hopen : p.closed = false)
    (hseats : p.seats ≠ []) (hsize : p.seats.length ≤ UInt64.size)
    (hafter : ∀ w, b.after w → w.snapshot = s) (hanswered : ∀ id ∈ ids, id ∉ p.unanswered) :
    Resting s p ∧ files = b.final ∧ ∀ id ∈ ids, ∃ w, p.answer? id = some (b.answer w) := by
  have hpending : p.pending = [] := by
    refine List.eq_nil_iff_forall_not_mem.2 fun c hc => ?_
    exact hanswered c.1 (h.reported.pending c hc).1 (List.mem_map_of_mem hc)
  have hplaces : p.places = [] := by
    refine List.Perm.eq_nil ?_
    have hperm := h.balanced.perm.symm
    rwa [unanswered, hpending] at hperm
  have htodo : p.todo = [] := by
    refine List.eq_nil_iff_forall_not_mem.2 fun m hm => ?_
    obtain ⟨id, rfl⟩ := h.worked.calls m hm
    have hid := mem_places_of_todo hm
    rw [hplaces] at hid
    cases hid
  have hinbox : ∀ t ∈ p.seats, t.inbox = [] :=
    List.flatMap_eq_nil_iff.1 (List.append_eq_nil_iff.1 htodo).2
  refine ⟨⟨ho, hopen, hseats, hsize, htodo, fun m hm => ?_, hpending, fun t ht => ?_⟩, ?_,
    fun id hid => (h.reported.answered id hid).resolve_left (hanswered id hid)⟩
  · obtain hready | ⟨id, hreply⟩ := h.reported.mail m hm
    · exact hready
    · obtain ⟨result, error, heq⟩ := ofOutcome_eq id b.outcome
      have hid : id ∈ p.places := List.mem_append_right _
        (List.mem_filterMap.2 ⟨m, hm, by rw [hreply, heq]; rfl⟩)
      rw [hplaces] at hid
      cases hid
  · exact hafter t.worker (h.worked.free t ht (hinbox t ht))
  · rw [h.worked.files_eq, if_pos htodo]

theorem Underway.unanswered_of_quiet (h : Underway b ids p files) (hquiet : p.Quiet)
    (hqueue : p.queue = []) : p.unanswered = [] := by
  have htodo : p.todo = [] := by
    rw [todo, hqueue, List.nil_append]
    exact List.flatMap_eq_nil_iff.2 fun t ht => (hquiet.seat t ht).2
  have hplaces : p.places = [] := by
    rw [places, htodo, returning, hquiet.mail]
    rfl
  exact List.Perm.eq_nil (hplaces ▸ h.balanced.perm)

theorem Underway.steps (h : Underway b ids p files) (ho : Orderly p) (hopen : p.closed = false)
    (hworks : b.Works transformer) (order : List Step) :
    let done := (steps transformer order p).run files
    Orderly done.1 ∧ done.1.closed = false ∧ Underway b ids done.1 done.2 ∧
      done.1.seats.length = p.seats.length := by
  exact ho.steps_kept (I := fun q t => Underway b ids q t ∧ q.seats.length = p.seats.length)
    (fun _ hmoves hq => ⟨hq.1.move hworks hmoves, hmoves.length_seats.trans hq.2⟩) hopen ⟨h, rfl⟩ order

/-! ## Sending a batch -/

theorem underway_of_sent (htodo : p.todo.Perm (ids.map (.call b.method b.args)))
    (hmail : ∀ m ∈ p.mail, m.2 = .ready) (hpending : p.pending = ids.map (·, b.method))
    (hnodup : ids.Nodup) (hids : ids ≠ []) (halone : ids.length ≤ 1 ∨ b.start = b.final)
    (hfree : ∀ t ∈ p.seats, t.inbox = [] → b.after t.worker)
    (hbusy : ∀ t ∈ p.seats, t.inbox ≠ [] → b.before t.worker)
    (hqueue : p.queue ≠ [] → ∀ w, b.after w → b.before w) : Underway b ids p b.start := by
  have hunanswered : p.unanswered = ids := by
    rw [unanswered, hpending, List.map_map]
    exact List.map_id ids
  have hplaces : p.places.Perm ids := by
    have hreturning : p.returning = [] := by
      refine List.filterMap_eq_nil_iff.2 fun m hm => ?_
      rw [hmail m hm]
      rfl
    rw [places, hreturning, List.append_nil]
    refine (htodo.filterMap _).trans (.of_eq ?_)
    rw [List.filterMap_map]
    exact List.filterMap_some
  have hlength : p.todo.length = ids.length := by rw [htodo.length_eq, List.length_map]
  refine ⟨⟨hplaces.nodup_iff.2 hnodup, hunanswered ▸ hplaces.symm⟩,
    ⟨fun m hm => ?_, ?_, hlength ▸ halone, hfree, hbusy, hqueue⟩,
    ⟨fun m hm => .inl (hmail m hm), fun c hc => ?_, fun id hid => .inl (hunanswered ▸ hid)⟩⟩
  · obtain ⟨id, -, rfl⟩ := List.mem_map.1 (htodo.mem_iff.1 hm)
    exact ⟨id, rfl⟩
  · rw [if_neg]
    intro hnil
    rw [hnil, List.length_nil] at hlength
    exact hids (List.length_eq_zero_iff.1 hlength.symm)
  · rw [hpending] at hc
    obtain ⟨id, hid, rfl⟩ := List.mem_map.1 hc
    exact ⟨hid, rfl⟩

theorem perm_todo_send (hw : w < p.seats.length) (call : Message) :
    (p.send w call).todo.Perm (p.todo ++ [call]) := by
  have hs := List.getElem?_eq_getElem hw
  have hperm := perm_todo_set hs { p.seats[w] with inbox := p.seats[w].inbox ++ [call] }
  rw [send, List.modify_eq_set_getElem?, hs]
  refine (List.perm_append_right_iff p.seats[w].inbox).1 (hperm.trans ?_)
  rw [List.append_assoc]
  exact List.perm_append_comm.append_left p.todo

theorem exists_of_mem_send {t : Seat} (ht : t ∈ (p.send w call).seats) :
    ∃ u ∈ p.seats, t.worker = u.worker := by
  obtain ⟨i, hi⟩ := List.getElem?_of_mem ht
  simp only [send, List.getElem?_modify, Option.map_eq_map, Option.map_eq_some_iff] at hi
  obtain ⟨u, hu, rfl⟩ := hi
  refine ⟨u, List.mem_of_getElem? hu, ?_⟩
  split <;> rfl

theorem sendEach_todo (method : String) (args : List Datum) {workers : List Nat} (p : Pool)
    (hlt : ∀ w ∈ workers, w < p.seats.length) :
    let sent := sendEach method args workers p
    sent.2.todo.Perm (p.todo ++ sent.1.map (Message.call method args)) ∧
      sent.2.pending = p.pending ++ sent.1.map (·, method) ∧
      sent.1 = (List.range workers.length).map fun k => p.nextId + UInt64.ofNat k := by
  induction workers generalizing p with
  | nil => exact ⟨by simp [sendEach], by simp [sendEach], rfl⟩
  | cons w rest ih =>
    let next := (p.register method args).2.send w (.call method args p.nextId)
    have hlength : next.seats.length = p.seats.length := List.length_modify _ _ _
    obtain ⟨htodo, hpending, hids⟩ := ih next fun v hv => hlength ▸ hlt v (List.mem_cons_of_mem w hv)
    have hfirst : next.todo.Perm (p.todo ++ [.call method args p.nextId]) :=
      perm_todo_send (p := (p.register method args).2) (hlt w List.mem_cons_self) _
    have hsent : sendEach method args (w :: rest) p =
        (p.nextId :: (sendEach method args rest next).1, (sendEach method args rest next).2) := rfl
    simp only [hsent]
    refine ⟨?_, ?_, ?_⟩
    · refine htodo.trans ((hfirst.append_right _).trans ?_)
      rw [List.append_assoc]
      exact .refl _
    · rw [hpending, List.map_cons, List.append_cons]
      rfl
    · have hnext : next.nextId = p.nextId + 1 := rfl
      rw [hids, hnext, List.length_cons, List.range_succ_eq_map, List.map_cons, List.map_map]
      refine congrArg₂ List.cons (by simp) (List.map_congr_left fun k _ => ?_)
      rw [Function.comp_apply, Nat.succ_eq_add_one, UInt64.ofNat_add, UInt64.add_assoc,
        UInt64.add_comm 1]
      rfl

theorem nodup_numbers (first : UInt64) {n : Nat} (hn : n ≤ UInt64.size) :
    ((List.range n).map fun k => first + UInt64.ofNat k).Nodup := by
  refine List.nodup_range.map_on fun j hj k hk heq => ?_
  have heq := congrArg UInt64.toNat ((UInt64.add_right_inj first).1 heq)
  simp only [UInt64.toNat_ofNat', List.mem_range] at heq hj hk
  simp only [UInt64.size] at hn
  omega

structure Sent (b : Batch) (ids : List UInt64) (p q : Pool) : Prop where
  orderly : Orderly q
  opened : q.closed = false
  length : q.seats.length = p.seats.length
  underway : Underway b ids q b.start

theorem Resting.submit (h : Resting s p) (hafter : ∀ w, w.snapshot = s → b.after w)
    (hstill : ∀ w, b.after w → b.before w) :
    ∃ id q, p.submit b.method b.args = (.ok id, q) ∧ Sent b [id] p q := by
  have hpending : p.pending ++ [(p.nextId, b.method)] = [p.nextId].map (·, b.method) := by
    rw [h.pending]
    rfl
  have hworker : ∀ t ∈ p.seats, b.after t.worker := fun t ht => hafter _ (h.snapshot t ht)
  have horderly := h.orderly.act (.submit b.method b.args)
  cases hready : p.ready with
  | nil =>
    have hsubmit : p.submit b.method b.args = (.ok p.nextId,
        { (p.register b.method b.args).2 with
          queue := p.queue ++ [.call b.method b.args p.nextId] }) := by
      simp [Pool.submit, h.opened, register, hready]
    rw [Pool.act, hsubmit] at horderly
    have htodo : Pool.todo { (p.register b.method b.args).2 with
        queue := p.queue ++ [.call b.method b.args p.nextId] } =
          [.call b.method b.args p.nextId] := by
      obtain ⟨hqueue, hinbox⟩ := List.append_eq_nil_iff.1 h.todo
      simp only [Pool.todo, register, hqueue, hinbox, List.nil_append, List.append_nil]
    exact ⟨_, _, hsubmit, horderly, h.opened, rfl, underway_of_sent (.of_eq htodo) h.mail hpending
      (by simp) (by simp) (.inl (Nat.le_refl 1)) (fun t ht _ => hworker t ht)
      (fun t ht _ => hstill _ (hworker t ht)) fun _ => hstill⟩
  | cons w rest =>
    have hsubmit : p.submit b.method b.args = (.ok p.nextId,
        { (p.register b.method b.args).2 with ready := rest }.send w
          (.call b.method b.args p.nextId)) := by
      simp [Pool.submit, h.opened, register, hready]
    rw [Pool.act, hsubmit] at horderly
    have htodo := perm_todo_send (p := { (p.register b.method b.args).2 with ready := rest })
      (h.orderly.ready (i := w) (by simp [hready])) (.call b.method b.args p.nextId)
    have hnil : Pool.todo { (p.register b.method b.args).2 with ready := rest } = [] := h.todo
    rw [hnil] at htodo
    have hafter' : ∀ t ∈ ({ (p.register b.method b.args).2 with ready := rest }.send w
        (.call b.method b.args p.nextId)).seats, b.after t.worker := by
      intro t ht
      obtain ⟨u, hu, heq⟩ := exists_of_mem_send ht
      exact heq ▸ hworker u hu
    exact ⟨_, _, hsubmit, horderly, h.opened, List.length_modify _ _ _, underway_of_sent htodo h.mail
      hpending (by simp) (by simp) (.inl (Nat.le_refl 1)) (fun t ht _ => hafter' t ht)
      (fun t ht _ => hstill _ (hafter' t ht)) fun _ => hstill⟩

theorem sendEach_of_submitAll {q : Pool} (h : p.submitAll method args = (.ok ids, q)) :
    sendEach method args p.ready { p with ready := [] } = (ids, q) := by
  rw [submitAll] at h
  split_ifs at h
  · cases h
  · cases h
  · cases hsend : sendEach method args p.ready { p with ready := [] } with
    | mk sent r =>
      rw [hsend] at h
      cases h
      rfl

theorem Resting.submitAll (h : Resting s p) (hbefore : ∀ w, w.snapshot = s → b.before w)
    (hstart : b.start = b.final) {q : Pool} (hsent : p.submitAll b.method b.args = (.ok ids, q)) :
    Sent b ids p q := by
  obtain ⟨ids', hids, hall⟩ | ⟨e, he⟩ := h.orderly.submitAll_cases b.method b.args
  · have horderly := h.orderly.act (.submitAll b.method b.args)
    have hsame := face_submitAll p b.method b.args
    obtain ⟨htodo, hpending, hnumbers⟩ := sendEach_todo b.method b.args { p with ready := [] }
      fun w hw => h.orderly.ready hw
    have hnil : Pool.todo { p with ready := [] } = [] := h.todo
    rw [sendEach_of_submitAll hsent] at htodo hpending hnumbers
    rw [hnil, List.nil_append] at htodo
    rw [Pool.act, hsent] at horderly
    rw [hsent] at hids hall hsame
    dsimp only at hpending hnumbers
    cases hids
    have hlength : p.ready.length = p.seats.length := by
      rw [← hall.length, hnumbers, List.length_map, List.length_range]
    have hseat : ∀ t ∈ q.seats, t.inbox ≠ [] ∧ b.before t.worker := by
      intro t ht
      obtain ⟨i, hi⟩ := List.getElem?_of_mem ht
      have hlt : i < p.seats.length := hall.size ▸ (List.getElem?_eq_some_iff.1 hi).1
      obtain ⟨-, id, -, hseat⟩ := hall.seat (List.getElem?_eq_getElem hlt)
      cases hi.symm.trans hseat
      exact ⟨by simp, hbefore p.seats[i].worker (h.snapshot _ (List.getElem_mem hlt))⟩
    have hmail : q.mail = p.mail := congrArg (·.2.1) hsame
    refine ⟨horderly, (congrArg (·.2.2) hsame).trans h.opened, hall.size, underway_of_sent htodo
      (hmail ▸ h.mail) (hpending.trans ?_) ?_ ?_ (.inr hstart)
      (fun t ht hfree => absurd hfree (hseat t ht).1) (fun t ht _ => (hseat t ht).2) fun hne => ?_⟩
    · rw [h.pending]
      rfl
    · rw [hnumbers, hlength]
      exact nodup_numbers _ h.size
    · rintro rfl
      exact h.seats (List.length_eq_zero_iff.1 hall.length.symm)
    · exact absurd (hall.queue.trans (List.append_eq_nil_iff.1 h.todo).1) hne
  · rw [hsent] at he
    cases he

end ClassForge.Pool
