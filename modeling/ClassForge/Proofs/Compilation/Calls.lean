import ClassForge.Proofs.Compilation.Workers
import Mathlib.Data.List.Nodup

/-!
# The calls of a pool

Every call that a pool accepts has a number. Until the pool is shut down it is answered, waits, is at
one worker, or its answer is on the way to the dispatcher. When the pool is shut down, whatever has no
answer yet is answered with an error, and nothing is accepted any more.
-/

namespace ClassForge

namespace Message

def callId? : Message → Option UInt64
  | call _ _ id => some id
  | _ => none

def answeredId? : Message → Option UInt64
  | answer _ _ id => some id
  | _ => none

end Message

namespace Pool

/-! ## Where calls are -/

def answered (p : Pool) : List UInt64 := p.answers.map (·.1)

def unanswered (p : Pool) : List UInt64 := p.pending.map (·.1)

def queued (p : Pool) : List UInt64 := p.queue.filterMap Message.callId?

def inboxes (seats : List Seat) : List UInt64 :=
  seats.flatMap fun s => s.inbox.filterMap Message.callId?

def atWorkers (p : Pool) : List UInt64 := inboxes p.seats

def returning (p : Pool) : List UInt64 := p.mail.filterMap fun m => m.2.answeredId?

variable {p p' : Pool} {calls new : List Message} {id : UInt64} {w : Nat} {a : Action}

theorem perm_flatMap_set {α : Type} [DecidableEq α] (f : Seat → List α) {seats : List Seat}
    {s : Seat} (hs : seats[w]? = some s) (s' : Seat) :
    ((seats.set w s').flatMap f ++ f s).Perm (seats.flatMap f ++ f s') := by
  refine List.perm_iff_count.2 fun a => ?_
  induction seats generalizing w with
  | nil => cases hs
  | cons t seats ih =>
    cases w with
    | zero =>
      cases hs
      simp only [List.set_cons_zero, List.flatMap_cons, List.count_append]
      omega
    | succ w =>
      have := ih hs
      simp only [List.set_cons_succ, List.flatMap_cons, List.count_append] at this ⊢
      omega

theorem count_inboxes_set {seats : List Seat} {s : Seat} (hs : seats[w]? = some s) (s' : Seat)
    (id : UInt64) :
    (inboxes (seats.set w s')).count id + (s.inbox.filterMap Message.callId?).count id =
      (inboxes seats).count id + (s'.inbox.filterMap Message.callId?).count id := by
  simpa only [inboxes, List.count_append] using (perm_flatMap_set _ hs s').count_eq id

/-! ## The numbers of calls -/

/-- Calls get the numbers from one on, and start again at zero after the greatest. -/
structure Numbered (calls : List Message) (p : Pool) : Prop where
  ids : calls.filterMap Message.callId? =
    (List.range calls.length).map fun k => UInt64.ofNat (k + 1)
  nextId : p.nextId = UInt64.ofNat (calls.length + 1)

theorem Numbered.turn (h : Numbered calls p) (ht : Turn p new p') : Numbered (calls ++ new) p' := by
  cases ht with
  | hand method args | enqueue method args =>
    constructor
    · rw [List.filterMap_append, h.ids, List.length_append, List.length_singleton,
        List.range_succ, List.map_append]
      simp [Message.callId?, h.nextId]
    · simp [h.nextId, UInt64.ofNat_add]
  | _ => exact ⟨by simpa using h.ids, by simpa using h.nextId⟩

theorem Numbered.nodup (h : Numbered calls p) (hsize : calls.length ≤ UInt64.size) :
    (calls.filterMap Message.callId?).Nodup := by
  rw [h.ids]
  refine List.nodup_range.map_on fun j hj k hk heq => ?_
  have heq := congrArg UInt64.toNat heq
  simp only [UInt64.toNat_ofNat', List.mem_range] at heq hj hk
  simp only [UInt64.size] at hsize
  omega

/-! ## No call is lost -/

/-- The calls that wait are those that were accepted last, and workers get nothing else. -/
structure InOrder (calls : List Message) (p : Pool) : Prop where
  queue : p.closed = false → p.queue <:+ calls
  inbox : ∀ {w : Nat} {s : Seat} {m : Message}, p.seats[w]? = some s → m ∈ s.inbox → m ∈ calls

theorem InOrder.of_set (h : InOrder calls p) {s' : Seat} (hseats : p'.seats = p.seats.set w s')
    (hinbox : ∀ m ∈ s'.inbox, m ∈ calls ++ new)
    (hqueue : p'.closed = false → p'.queue <:+ calls ++ new) : InOrder (calls ++ new) p' where
  queue := hqueue
  inbox {i s m} hi hm := by
    rw [hseats, List.getElem?_set] at hi
    split_ifs at hi with hwi hlt
    · cases hi
      exact hinbox m hm
    · exact List.mem_append_left _ (h.inbox hi hm)

theorem InOrder.turn (h : InOrder calls p) (ho : Orderly p) (ht : Turn p new p') :
    InOrder (calls ++ new) p' := by
  cases ht with
  | rest => simpa using h
  | hand method args hopen hready hs hinbox =>
    have hqueue : p.queue = [] := by
      by_contra hne
      simp [ho.queue hne] at hready
    exact h.of_set rfl (by simp) fun _ => hqueue ▸ List.nil_suffix
  | enqueue method args hopen hready =>
    obtain ⟨handed, hcalls⟩ := h.queue hopen
    refine ⟨fun _ => ⟨handed, ?_⟩, fun hi hm => List.mem_append_left _ (h.inbox hi hm)⟩
    rw [← hcalls, List.append_assoc]
  | announce hs hannouncing =>
    exact h.of_set rfl (fun m hm => List.mem_append_left _ (h.inbox hs hm)) (by simpa using h.queue)
  | execute worker result error hs hinbox => exact h.of_set rfl (by simp) (by simpa using h.queue)
  | answer _ _ _ | drop _ _ | remember _ _ _ | ignore _ _ =>
    rw [List.append_nil]
    exact ⟨h.queue, h.inbox⟩
  | @dequeue w s rest call more hopen hmail hqueue hs hinbox =>
    have hsuffix : call :: more <:+ calls := hqueue ▸ h.queue hopen
    refine h.of_set rfl (fun m hm => ?_) fun _ => ?_
    · obtain rfl := List.mem_singleton.1 hm
      exact List.mem_append_left _ (hsuffix.mem List.mem_cons_self)
    · rw [List.append_nil]
      exact (List.suffix_cons call more).trans hsuffix
  | shutdown hopen =>
    rw [List.append_nil]
    exact ⟨Bool.noConfusion, h.inbox⟩

/-- Every call that was accepted has an answer or will get one. -/
structure Covered (calls : List Message) (p : Pool) : Prop where
  id : ∀ {id}, id ∈ calls.filterMap Message.callId? → id ∈ p.answered ∨ id ∈ p.unanswered
  closed : p.closed = true → p.pending = []

theorem Covered.accept (h : Covered calls p) {x : UInt64} (hopen : p.closed = false)
    (hclosed : p'.closed = p.closed) (hnew : new.filterMap Message.callId? = [x])
    (hanswered : p'.answered = p.answered) (hunanswered : p'.unanswered = p.unanswered ++ [x]) :
    Covered (calls ++ new) p' where
  id {id} hid := by
    rw [hanswered, hunanswered]
    rw [List.filterMap_append, hnew, List.mem_append] at hid
    obtain hid | hid := hid
    · exact (h.id hid).imp_right (List.mem_append_left _)
    · exact .inr (List.mem_append_right _ hid)
  closed hc := by
    rw [hclosed, hopen] at hc
    cases hc

theorem Covered.turn (h : Covered calls p) (ht : Turn p new p') : Covered (calls ++ new) p' := by
  cases ht with
  | hand _ _ hopen _ _ _ => exact h.accept hopen rfl rfl rfl (by simp [unanswered])
  | enqueue _ _ hopen _ => exact h.accept hopen rfl rfl rfl (by simp [unanswered])
  | @answer w result error id rest method outcome hmail hpending =>
    refine ⟨fun {x} hx => ?_, fun hc => ?_⟩
    · rw [List.append_nil] at hx
      by_cases heq : x = id
      · exact .inl (by simp [answered, heq])
      · refine (h.id hx).imp (List.mem_cons_of_mem _) fun hmem => ?_
        obtain ⟨c, hc, rfl⟩ := List.mem_map.1 hmem
        exact List.mem_map.2 ⟨c, List.mem_filter.2 ⟨hc, by simpa using heq⟩, rfl⟩
    · simp [h.closed hc]
  | shutdown hopen =>
    refine ⟨fun {x} hx => .inl ?_, fun _ => rfl⟩
    rw [List.append_nil] at hx
    have hmem := h.id hx
    simp only [answered, unanswered, List.map_append, List.map_map, List.mem_append] at hmem ⊢
    exact hmem.symm
  | rest | announce _ _ | execute _ _ _ _ _ | drop _ _ | dequeue _ _ _ _ _ | remember _ _ _
  | ignore _ _ =>
    rw [List.append_nil]
    exact ⟨h.id, h.closed⟩

structure Conserved (calls : List Message) (p : Pool) : Prop where
  accepted_eq : ∀ id,
    (calls.filterMap Message.callId?).count id = p.answered.count id + p.unanswered.count id
  unanswered_eq : p.closed = false → ∀ id,
    p.unanswered.count id = p.queued.count id + p.atWorkers.count id + p.returning.count id

theorem mem_unanswered_of_lookup {method : String} (h : p.pending.lookup id = some method) :
    id ∈ p.unanswered := by
  obtain ⟨l₁, l₂, heq, -⟩ := List.lookup_eq_some_iff.1 h
  simp [unanswered, heq]

theorem not_mem_unanswered_of_lookup (h : p.pending.lookup id = none) : id ∉ p.unanswered := by
  intro hm
  obtain ⟨c, hc, rfl⟩ := List.mem_map.1 hm
  have := List.lookup_eq_none_iff.1 h c hc
  simp at this

theorem count_map_filter_ne (pending : List (UInt64 × String)) (id x : UInt64) :
    ((pending.filter (·.1 ≠ id)).map (·.1)).count x =
      if x = id then 0 else (pending.map (·.1)).count x := by
  have hmap : (pending.filter (·.1 ≠ id)).map (·.1) = (pending.map (·.1)).filter (· ≠ id) := by
    rw [List.filter_map]
    rfl
  rw [hmap]
  split_ifs with hx
  · exact List.count_eq_zero.2 (by simp [hx])
  · exact List.count_filter (by simpa using hx)

namespace Conserved

theorem accept (h : Conserved calls p) {x : UInt64} (hopen : p.closed = false)
    (hnew : new.filterMap Message.callId? = [x]) (hanswered : p'.answered = p.answered)
    (hunanswered : p'.unanswered = p.unanswered ++ [x])
    (hplaces : ∀ id, p'.queued.count id + p'.atWorkers.count id + p'.returning.count id =
      p.queued.count id + p.atWorkers.count id + p.returning.count id + [x].count id) :
    Conserved (calls ++ new) p' where
  accepted_eq id := by
    rw [List.filterMap_append, hnew, hanswered, hunanswered, List.count_append, List.count_append,
      h.accepted_eq, Nat.add_assoc]
  unanswered_eq _ id := by
    rw [hplaces, hunanswered, List.count_append, h.unanswered_eq hopen]

theorem move (h : Conserved calls p) (hclosed : p'.closed = p.closed)
    (hanswered : p'.answered = p.answered) (hunanswered : p'.unanswered = p.unanswered)
    (hplaces : p.closed = false → ∀ id,
      p'.queued.count id + p'.atWorkers.count id + p'.returning.count id =
        p.queued.count id + p.atWorkers.count id + p.returning.count id) :
    Conserved (calls ++ []) p' where
  accepted_eq id := by rw [List.append_nil, hanswered, hunanswered, h.accepted_eq]
  unanswered_eq hopen id := by
    rw [hclosed] at hopen
    rw [hplaces hopen, hunanswered, h.unanswered_eq hopen]

theorem settle (h : Conserved calls p) (hone : p.unanswered.count id = 1)
    (hclosed : p'.closed = p.closed) (hanswered : p'.answered = id :: p.answered)
    (hunanswered : ∀ x, p'.unanswered.count x = if x = id then 0 else p.unanswered.count x)
    (hqueued : p'.queued = p.queued) (hworkers : p'.atWorkers = p.atWorkers)
    (hreturning : p.returning = id :: p'.returning) : Conserved (calls ++ []) p' where
  accepted_eq x := by
    rw [List.append_nil, h.accepted_eq, hanswered, hunanswered]
    split_ifs with hx
    · rw [hx, List.count_cons_self, hone]
    · rw [List.count_cons_of_ne (Ne.symm hx)]
  unanswered_eq hopen x := by
    have hplaces := h.unanswered_eq (hclosed ▸ hopen) x
    rw [hreturning] at hplaces
    rw [hunanswered, hqueued, hworkers]
    split_ifs with hx
    · rw [hx] at hplaces ⊢
      rw [hone, List.count_cons_self] at hplaces
      omega
    · rw [hplaces, List.count_cons_of_ne (Ne.symm hx)]

/-- Every turn moves a call from one place to the next. -/
theorem turn (h : Conserved calls p) (ht : Turn p new p')
    (hnodup : (calls.filterMap Message.callId?).Nodup) : Conserved (calls ++ new) p' := by
  cases ht with
  | rest => simpa using h
  | @hand w s rest method args hopen hready hs hinbox =>
    refine h.accept (x := p.nextId) hopen rfl rfl (by simp [unanswered]) fun id => ?_
    have hset := count_inboxes_set hs { s with inbox := [.call method args p.nextId] } id
    simp only [hinbox, List.filterMap_nil, List.count_nil, List.filterMap_cons, Message.callId?] at hset
    simp only [queued, atWorkers, returning]
    omega
  | enqueue method args hopen hready =>
    refine h.accept (x := p.nextId) hopen rfl rfl (by simp [unanswered]) fun id => ?_
    simp only [queued, atWorkers, returning, List.filterMap_append, List.count_append,
      List.filterMap_cons, List.filterMap_nil, Message.callId?]
    omega
  | @announce i s hs hannouncing =>
    refine h.move rfl rfl rfl fun _ id => ?_
    have hset := count_inboxes_set hs { s with announcing := false } id
    dsimp only at hset
    simp only [queued, atWorkers, returning, List.filterMap_append, List.count_append,
      List.filterMap_cons, List.filterMap_nil, Message.ready, Message.answeredId?, List.count_nil]
    omega
  | @execute i s method args id worker result error hs hinbox =>
    refine h.move rfl rfl rfl fun _ x => ?_
    have hset := count_inboxes_set hs { worker, inbox := [], announcing := true } x
    simp only [hinbox, List.filterMap_nil, List.count_nil, List.filterMap_cons, Message.callId?] at hset
    simp only [queued, atWorkers, returning, List.filterMap_append, List.count_append,
      List.filterMap_cons, List.filterMap_nil, Message.answeredId?]
    omega
  | @answer w result error id rest method outcome hmail hpending =>
    -- The number is without an answer just once, so nothing else is taken out with it.
    have hmem : 0 < p.unanswered.count id := List.count_pos_iff.2 (mem_unanswered_of_lookup hpending)
    have hle := List.nodup_iff_count_le_one.1 hnodup id
    have hone : p.unanswered.count id = 1 := by
      have := h.accepted_eq id
      omega
    exact h.settle hone rfl rfl (count_map_filter_ne p.pending id) rfl rfl
      (by simp [returning, hmail, Message.answeredId?])
  | @drop w result error id rest hmail hpending =>
    refine h.move rfl rfl rfl fun hopen _ => ?_
    have hnot := List.count_eq_zero.2 (not_mem_unanswered_of_lookup hpending)
    rw [h.unanswered_eq hopen id, returning, hmail] at hnot
    simp [Message.answeredId?] at hnot
  | @dequeue w s rest call more hopen hmail hqueue hs hinbox =>
    refine h.move rfl rfl rfl fun _ id => ?_
    have hset := count_inboxes_set hs { s with inbox := [call] } id
    have hcall : p.queued.count id =
        ([call].filterMap Message.callId?).count id + (more.filterMap Message.callId?).count id := by
      rw [queued, hqueue, ← List.count_append, ← List.filterMap_append, List.singleton_append]
    rw [hcall]
    simp only [hinbox, List.filterMap_nil, List.count_nil] at hset
    simp only [queued, atWorkers, returning, hmail, List.filterMap_cons, Message.ready,
      Message.answeredId?] at hset ⊢
    omega
  | remember hopen hmail hqueue =>
    refine h.move rfl rfl rfl fun _ id => ?_
    simp only [queued, atWorkers, returning, hmail, List.filterMap_cons, Message.ready,
      Message.answeredId?]
  | ignore hclosed hmail =>
    refine h.move rfl rfl rfl fun hopen => ?_
    rw [hclosed] at hopen
    cases hopen
  | shutdown hopen =>
    constructor
    · intro id
      rw [List.append_nil, h.accepted_eq]
      simp [answered, unanswered, Nat.add_comm, Function.comp_def]
    · intro hc
      cases hc

end Conserved

/-! ## Where answers come from -/

def Returns (id : UInt64) (outcome : Except PoolError Datum) (p : Pool) (a : Action) : Prop :=
  a = .deliver ∧ ∃ w result error rest method, p.mail = (w, .answer result error id) :: rest ∧
    p.pending.lookup id = some method ∧
      (error = none ∧ outcome = .ok (result.getD (.ofJson .null)) ∨
        ∃ m, error = some m ∧ outcome = .error (.method w method m))

def Closes (id : UInt64) (outcome : Except PoolError Datum) (p : Pool) (a : Action) : Prop :=
  a = .shutdown ∧ p.closed = false ∧ id ∈ p.unanswered ∧ outcome = .error .closed

def Executes (w : Nat) (result : Option Datum) (error : Option String) (id : UInt64) (p : Pool)
    (a : Action) : Prop :=
  ∃ transformer files s method args, a = .execute transformer files w ∧ p.seats[w]? = some s ∧
    s.inbox = [.call method args id] ∧ Message.answer result error id =
      .ofOutcome id ((s.worker.call transformer method args).run files).1.1

abbrev Face := List (UInt64 × Except PoolError Datum) × List (Nat × Message) × Bool

/-- What callers and the dispatcher see of a pool. -/
def face (p : Pool) : Face := (p.answers, p.mail, p.closed)

theorem face_submit (p : Pool) (method : String) (args : List Datum) :
    (p.submit method args).2.face = p.face := by
  rw [submit]
  split_ifs with hclosed
  · rfl
  · cases hready : p.ready <;> simp only [register, hready] <;> rfl

theorem face_submitAll (p : Pool) (method : String) (args : List Datum) :
    (p.submitAll method args).2.face = p.face := by
  obtain ⟨n, hpool, -⟩ := exists_submits p method args
  rw [act] at hpool
  rw [hpool]
  clear hpool
  induction n generalizing p with
  | zero => rfl
  | succ n ih => exact (ih (p.submit method args).2).trans (face_submit p method args)

theorem face_workerReady (p : Pool) (w : Nat) : (p.workerReady w).face = p.face := by
  rw [workerReady]
  split_ifs with hclosed
  · rfl
  · cases hqueue : p.queue <;> rfl

def Rests (p : Pool) : Action → Prop
  | .execute _ _ i => ∀ s, p.seats[i]? = some s → s.inbox = []
  | _ => True

/-- What is seen of a pool after an action. -/
inductive Effect (p : Pool) : Action → Face → Prop
  | idle {a : Action} (h : p.Rests a) : Effect p a p.face
  | announce (i : Nat) : Effect p (.announce i) (p.answers, p.mail ++ [(i, .ready)], p.closed)
  | execute {i : Nat} {s : Seat} {method : String} {args : List Datum} {id : UInt64}
      (transformer : Transformer) (files : FileTree) (hs : p.seats[i]? = some s)
      (hannouncing : s.announcing = false) (hinbox : s.inbox = [.call method args id]) :
      Effect p (.execute transformer files i) (p.answers, p.mail ++
        [(i, .ofOutcome id ((s.worker.call transformer method args).run files).1.1)], p.closed)
  | skip {first : Nat × Message} {rest : List (Nat × Message)} (hmail : p.mail = first :: rest)
      (h : ∀ id, first.2.answeredId? = some id → p.pending.lookup id = none) :
      Effect p .deliver (p.answers, rest, p.closed)
  | answer {id : UInt64} {outcome : Except PoolError Datum} (h : Returns id outcome p .deliver) :
      Effect p .deliver ((id, outcome) :: p.answers, p.mail.tail, p.closed)
  | shutdown (hopen : p.closed = false) : Effect p .shutdown
      (p.pending.map (fun c => (c.1, .error .closed)) ++ p.answers, p.mail, true)

theorem Orderly.effect (h : Orderly p) (a : Action) : Effect p a (p.act a).face := by
  cases a with
  | submit method args => exact face_submit p method args ▸ .idle trivial
  | submitAll method args => exact face_submitAll p method args ▸ .idle trivial
  | announce i =>
    rw [act, Pool.announce]
    split
    · exact .idle trivial
    · split_ifs
      · exact .announce i
      · exact .idle trivial
  | execute transformer files i =>
    rw [act]
    obtain hidle | ⟨s, method, args, x, hs, hannouncing, hinbox⟩ := h.idle_or_called i
    · rw [execute_idle hidle]
      exact .idle hidle
    · rw [execute_call hs hannouncing hinbox]
      exact .execute transformer files hs hannouncing hinbox
  | deliver =>
    rw [act]
    obtain ⟨-, heq⟩ | ⟨w, result, error, x, rest, hmail, heq⟩ | ⟨w, rest, hmail, heq⟩ := h.deliver_cases
    · rw [heq]
      exact .idle trivial
    · rw [heq, complete, Pool.answer]
      split
      · next hpending =>
        refine .skip hmail ?_
        rintro _ ⟨⟩
        exact hpending
      · next method hpending =>
        have hrest : rest = p.mail.tail := by rw [hmail, List.tail_cons]
        rw [face, hrest]
        refine .answer ⟨rfl, w, result, error, rest, method, hmail, hpending, ?_⟩
        cases error with
        | none => exact .inl ⟨rfl, rfl⟩
        | some m => exact .inr ⟨m, rfl, rfl⟩
    · rw [heq, face_workerReady]
      exact .skip hmail (by rintro _ ⟨⟩)
  | shutdown =>
    rw [act, Pool.shutdown]
    split_ifs with hclosed
    · exact .idle trivial
    · exact .shutdown (by simpa using hclosed)

theorem Orderly.answers_act (h : Orderly p) {outcome : Except PoolError Datum}
    (hmem : (id, outcome) ∈ (p.act a).answers) :
    (id, outcome) ∈ p.answers ∨ Returns id outcome p a ∨ Closes id outcome p a := by
  have heffect := h.effect a
  replace hmem : (id, outcome) ∈ (p.act a).face.1 := hmem
  generalize (p.act a).face = seen at hmem heffect
  cases heffect with
  | idle | announce | execute | skip => exact .inl hmem
  | answer hreturns =>
    obtain hmem | hmem := List.mem_cons.1 hmem
    · cases hmem
      exact .inr (.inl hreturns)
    · exact .inl hmem
  | shutdown hopen =>
    obtain hmem | hmem := List.mem_append.1 hmem
    · obtain ⟨c, hc, heq⟩ := List.mem_map.1 hmem
      cases heq
      exact .inr (.inr ⟨rfl, hopen, List.mem_map_of_mem hc, rfl⟩)
    · exact .inl hmem

theorem Orderly.mail_act (h : Orderly p) {result : Option Datum} {error : Option String}
    (hmem : (w, .answer result error id) ∈ (p.act a).mail) :
    (w, .answer result error id) ∈ p.mail ∨ Executes w result error id p a := by
  have heffect := h.effect a
  replace hmem : (w, Message.answer result error id) ∈ (p.act a).face.2.1 := hmem
  generalize (p.act a).face = seen at hmem heffect
  cases heffect with
  | idle | shutdown => exact .inl hmem
  | announce i => exact .inl (by simpa [Message.ready] using hmem)
  | @execute i s method args x transformer files hs _ hinbox =>
    obtain hmem | hmem := List.mem_append.1 hmem
    · exact .inl hmem
    · obtain ⟨rfl, hreply⟩ := Prod.mk.inj (List.mem_singleton.1 hmem)
      obtain ⟨r, e, hr⟩ := ofOutcome_eq x ((s.worker.call transformer method args).run files).1.1
      rw [hr] at hreply
      cases hreply
      exact .inr ⟨transformer, files, s, method, args, rfl, hs, hinbox, hr.symm⟩
  | skip hmail _ => exact .inl (hmail ▸ List.mem_cons_of_mem _ hmem)
  | answer _ => exact .inl (List.mem_of_mem_tail hmem)

theorem Orderly.closed_act (h : Orderly p) (ha : a ≠ .shutdown) : (p.act a).closed = p.closed := by
  have heffect := h.effect a
  change (p.act a).face.2.2 = p.closed
  generalize (p.act a).face = seen at heffect ⊢
  cases heffect with
  | shutdown => exact absurd rfl ha
  | _ => rfl

theorem Orderly.act (h : Orderly p) (a : Action) : Orderly (p.act a) :=
  (h.run (P := fun _ _ => True) (fun _ _ _ => trivial) [] trivial [a]).1

theorem Orderly.happened (h : Orderly p) {R : Pool → Prop} {Q : Pool → Action → Prop}
    (step : ∀ {q a}, Orderly q → R (q.act a) → R q ∨ Q q a) (hstart : ¬R p) {schedule : List Action}
    (hend : R (schedule.foldl Pool.act p)) : Happened Pool.act p schedule Q := by
  have hstep (q : Pool) (a : Action) (hq : Orderly q ∧ ¬R q) :
      Q q a ∨ Orderly (q.act a) ∧ ¬R (q.act a) := by
    by_cases hr : R (q.act a)
    · exact .inl ((step hq.1 hr).resolve_left hq.2)
    · exact .inr ⟨hq.1.act a, hr⟩
  exact (happened_or hstep ⟨h, hstart⟩ schedule).resolve_right fun hr => hr.2 hend

/-! ## The protocol -/

structure Accounts (calls : List Message) (p : Pool) : Prop where
  numbered : Numbered calls p
  inOrder : InOrder calls p
  covered : Covered calls p
  conserved : (calls.filterMap Message.callId?).Nodup → Conserved calls p

theorem Accounts.turn (h : Accounts calls p) (ho : Orderly p) (ht : Turn p new p') :
    Accounts (calls ++ new) p' where
  numbered := h.numbered.turn ht
  inOrder := h.inOrder.turn ho ht
  covered := h.covered.turn ht
  conserved hnodup := by
    rw [List.filterMap_append] at hnodup
    have hcalls := hnodup.of_append_left
    exact (h.conserved hcalls).turn ht hcalls

theorem accounts_ofSize (size : Nat) : Accounts [] (ofSize size) where
  numbered := ⟨rfl, rfl⟩
  inOrder := {
    queue := fun _ => List.suffix_refl []
    inbox := fun hi hm => by
      obtain ⟨j, -, rfl⟩ := List.mem_map.1 (List.mem_of_getElem? hi)
      cases hm }
  covered := ⟨fun hid => (List.not_mem_nil hid).elim, fun _ => rfl⟩
  conserved _ := by
    have hnone : (ofSize size).atWorkers = [] := by
      refine List.flatMap_eq_nil_iff.2 fun s hs => ?_
      obtain ⟨j, -, rfl⟩ := List.mem_map.1 hs
      rfl
    exact ⟨fun _ => rfl, fun _ id => by rw [hnone]; rfl⟩

/-- The protocol between callers, workers and the dispatcher of a pool that was new before the
schedule: `p` is the pool after it, and `calls` are the calls that were accepted. -/
structure Safe (start : Pool) (schedule : List Action) (p : Pool) (calls : List Message) : Prop where
  one_call : ∀ {i : Nat} {s : Seat}, p.seats[i]? = some s →
    s.inbox.length + ((p.transit i).filterMap Message.answeredId?).length ≤ 1
  ready_once : p.ready.Nodup
  ready_free : ∀ {i}, i ∈ p.ready → ∃ s, p.seats[i]? = some s ∧ s.inbox = [] ∧ p.transit i = []
  queue_busy : p.queue ≠ [] → p.ready = []
  in_order : .shutdown ∉ schedule → p.queue <:+ calls
  one_place : calls.length ≤ UInt64.size → .shutdown ∉ schedule →
    ∀ id ∈ calls.filterMap Message.callId?,
      p.answered.count id + p.queued.count id + p.atWorkers.count id + p.returning.count id = 1
  answered_once : calls.length ≤ UInt64.size → p.answered.Nodup
  answer : ∀ {id outcome}, (id, outcome) ∈ p.answers →
    Happened act start schedule fun q a => Returns id outcome q a ∨ Closes id outcome q a
  returned : ∀ {w result error id}, (w, .answer result error id) ∈ p.mail →
    Happened act start schedule (Executes w result error id)
  inbox : ∀ {i : Nat} {s : Seat} {m : Message}, p.seats[i]? = some s → m ∈ s.inbox → m ∈ calls
  shut_down : ∀ before after, schedule = before ++ .shutdown :: after →
    calls = start.accepted before ∧
      (∀ method args, p.submit method args = (.error .closed, p) ∧
        p.submitAll method args = (.error .closed, p)) ∧
      ∀ id ∈ calls.filterMap Message.callId?, id ∈ p.answered

theorem Round.one_call {closed announcing : Bool} {inbox t : List Message} {n : Nat}
    (h : Round closed announcing inbox t n) :
    inbox.length + (t.filterMap Message.answeredId?).length ≤ 1 := by
  cases h with
  | reporting h | reported h =>
    obtain rfl | ⟨result, error, id, rfl⟩ := h <;>
      simp [List.filterMap_cons, Message.answeredId?, Message.ready]
  | idle | busy _ _ _ | retired _ => simp

theorem Orderly.closed_of_not_mem (h : Orderly p) (hopen : p.closed = false) {schedule : List Action}
    (hnot : .shutdown ∉ schedule) : (schedule.foldl Pool.act p).closed = false := by
  induction schedule generalizing p with
  | nil => exact hopen
  | cons a schedule ih =>
    have ha : a ≠ .shutdown := fun heq => hnot (heq ▸ List.mem_cons_self)
    have hrest : .shutdown ∉ schedule := fun hmem => hnot (List.mem_cons_of_mem _ hmem)
    exact ih (h.act a) ((h.closed_act ha).trans hopen) hrest

theorem refused_of_closed (h : p.closed = true) (method : String) (args : List Datum) :
    p.submit method args = (.error .closed, p) ∧ p.submitAll method args = (.error .closed, p) := by
  simp [submit, submitAll, h]

theorem Orderly.accepted_of_closed (h : Orderly p) (hclosed : p.closed = true)
    (schedule : List Action) :
    (schedule.foldl Pool.act p).closed = true ∧ p.accepted schedule = [] := by
  have hrun := h.run (P := fun calls q => q.closed = true ∧ calls = [])
    (fun _ ht hq => ?_) [] ⟨hclosed, rfl⟩ schedule
  · simpa using hrun.2
  · obtain ⟨hc, rfl⟩ := hq
    cases ht with
    | hand _ _ hopen | enqueue _ _ hopen => rw [hopen] at hc; cases hc
    | shutdown _ => exact ⟨rfl, rfl⟩
    | _ => exact ⟨hc, rfl⟩

theorem Orderly.nodup_ready (h : Orderly p) : p.ready.Nodup := by
  refine List.nodup_iff_count_le_one.2 fun i => ?_
  by_cases hi : i ∈ p.ready
  · obtain ⟨s, -, -, -, -, hcount⟩ := h.seat_of_ready hi
    exact Nat.le_of_eq hcount
  · rw [List.count_eq_zero.2 hi]
    exact Nat.zero_le 1

theorem Accounts.one_place (h : Accounts calls p) (hsize : calls.length ≤ UInt64.size)
    (hopen : p.closed = false) (hid : id ∈ calls.filterMap Message.callId?) :
    p.answered.count id + p.queued.count id + p.atWorkers.count id + p.returning.count id = 1 := by
  have hnodup := h.numbered.nodup hsize
  have hconserved := h.conserved hnodup
  have haccepted := hconserved.accepted_eq id
  rw [List.count_eq_one_of_mem hnodup hid, hconserved.unanswered_eq hopen] at haccepted
  omega

theorem Accounts.nodup_answered (h : Accounts calls p) (hsize : calls.length ≤ UInt64.size) :
    p.answered.Nodup := by
  have hnodup := h.numbered.nodup hsize
  refine List.nodup_iff_count_le_one.2 fun id => ?_
  have haccepted := (h.conserved hnodup).accepted_eq id
  have hle := List.nodup_iff_count_le_one.1 hnodup id
  omega

theorem Covered.mem_answered (h : Covered calls p) (hclosed : p.closed = true)
    (hid : id ∈ calls.filterMap Message.callId?) : id ∈ p.answered := by
  refine (h.id hid).resolve_right fun hmem => ?_
  rw [unanswered, h.closed hclosed] at hmem
  exact List.not_mem_nil hmem

theorem closed_shutdown (p : Pool) : p.shutdown.closed = true := by
  rw [shutdown]
  split_ifs with hclosed
  · exact hclosed
  · rfl

theorem Orderly.shut_down (h : Orderly p) (before after : List Action) :
    ((before ++ .shutdown :: after).foldl Pool.act p).closed = true ∧
      p.accepted (before ++ .shutdown :: after) = p.accepted before := by
  have hbefore := (h.run (P := fun _ _ => True) (fun _ _ _ => trivial) [] trivial before).1
  obtain ⟨hclosed, hnone⟩ :=
    (hbefore.act .shutdown).accepted_of_closed (closed_shutdown _) after
  refine ⟨?_, ?_⟩
  · rw [List.foldl_append, List.foldl_cons, hclosed]
  · rw [accepted_append, accepted, hnone]
    exact List.append_nil _

theorem protocol_safe (size : Nat) (schedule : List Action) :
    Safe (ofSize size) schedule (schedule.foldl act (ofSize size))
      ((ofSize size).accepted schedule) := by
  have hstart := orderly_ofSize size
  obtain ⟨ho, haccounts⟩ := hstart.run (P := Accounts) (fun ho ht h => h.turn ho ht) []
    (accounts_ofSize size) schedule
  rw [List.nil_append] at haccounts
  have hopen (hnot : .shutdown ∉ schedule) := hstart.closed_of_not_mem rfl hnot
  exact {
    one_call := fun hi => (ho.round hi).one_call
    ready_once := ho.nodup_ready
    ready_free := fun hi => by
      obtain ⟨s, hs, -, hinbox, htransit, -⟩ := ho.seat_of_ready hi
      exact ⟨s, hs, hinbox, htransit⟩
    queue_busy := ho.queue
    in_order := fun hnot => haccounts.inOrder.queue (hopen hnot)
    one_place := fun hsize hnot id hid => haccounts.one_place hsize (hopen hnot) hid
    answered_once := haccounts.nodup_answered
    answer := fun {id outcome} hmem =>
      hstart.happened (R := fun q => (id, outcome) ∈ q.answers) (fun hq hr => hq.answers_act hr)
        (by simp [ofSize]) hmem
    returned := fun {w result error id} hmem =>
      hstart.happened (R := fun q => (w, .answer result error id) ∈ q.mail)
        (fun hq hr => hq.mail_act hr) (by simp [ofSize]) hmem
    inbox := haccounts.inOrder.inbox
    shut_down := by
      rintro before after rfl
      obtain ⟨hclosed, haccepted⟩ := hstart.shut_down before after
      exact ⟨haccepted, refused_of_closed hclosed, fun id hid =>
        haccounts.covered.mem_answered hclosed hid⟩ }

def oneWaits : List Action :=
  [.announce 0, .deliver, .submit Worker.ping [], .submit Worker.ping [],
    .execute .passthrough {} 0]

theorem protocol_safe_oneWaits :
    let p := oneWaits.foldl act (ofSize 1)
    p.returning = [1] ∧ p.queued = [2] ∧
    (∀ id ∈ [(1 : UInt64), 2], p.answered.count id + p.queued.count id + p.atWorkers.count id +
      p.returning.count id = 1) ∧
    ∀ id ∈ [(1 : UInt64), 2],
      id ∈ ((oneWaits ++ Action.shutdown :: [.deliver]).foldl act (ofSize 1)).answered := by
  have hcalls : ((ofSize 1).accepted oneWaits).filterMap Message.callId? = [1, 2] := rfl
  refine ⟨rfl, rfl, fun id hid => ?_, fun id hid => ?_⟩
  · exact (protocol_safe 1 oneWaits).one_place (by decide) (by simp [oneWaits]) id (hcalls ▸ hid)
  · obtain ⟨heq, -, hanswered⟩ :=
      (protocol_safe 1 (oneWaits ++ Action.shutdown :: [.deliver])).shut_down oneWaits [.deliver] rfl
    exact hanswered id (by rw [heq, hcalls]; exact hid)

end Pool

end ClassForge
