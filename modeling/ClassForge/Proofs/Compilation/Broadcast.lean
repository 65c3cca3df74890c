import ClassForge.Proofs.Compilation.Calls
import Mathlib.Data.List.Perm.Subperm

/-!
# Broadcasts

A broadcast is accepted only while all workers are ready. Each of them then has a call of its own,
keeps it until it does it, and does it once.
-/

namespace ClassForge.Pool

variable {p p' : Pool} {i : Nat} {s : Seat} {method : String} {args : List Datum} {a : Action}
  {schedule : List Action} {id : UInt64} {m : Message}

/-! ## Calls that are done -/

def performs (p : Pool) : Action → List (Nat × Message)
  | .execute _ _ i =>
    (p.seats[i]?.bind fun s => if s.announcing then none else s.inbox.head?).toList.map (i, ·)
  | _ => []

def performed (p : Pool) : List Action → List (Nat × Message)
  | [] => []
  | a :: schedule => p.performs a ++ (p.act a).performed schedule

theorem performed_append (p : Pool) (schedule more : List Action) :
    p.performed (schedule ++ more) = p.performed schedule ++ (schedule.foldl act p).performed more := by
  induction schedule generalizing p with
  | nil => rfl
  | cons a schedule ih => simp [performed, ih]

/-! ## A call for every worker -/

/-- Each of the workers gets a call of its own, in their order, and nothing else changes for them. -/
theorem sendEach_seats (method : String) (args : List Datum) {workers : List Nat} (p : Pool)
    (hnodup : workers.Nodup) (hlt : ∀ w ∈ workers, w < p.seats.length) :
    let sent := sendEach method args workers p
    sent.1.length = workers.length ∧ sent.2.seats.length = p.seats.length ∧
      ∀ {i : Nat} {s : Seat}, p.seats[i]? = some s →
        (i ∉ workers → sent.2.seats[i]? = some s) ∧
        (i ∈ workers → ∃ id ∈ sent.1,
          sent.2.seats[i]? = some { s with inbox := s.inbox ++ [.call method args id] }) := by
  induction workers generalizing p with
  | nil => exact ⟨rfl, rfl, fun hs => ⟨fun _ => hs, fun hi => by cases hi⟩⟩
  | cons w rest ih =>
    obtain ⟨hw, hrest⟩ := List.nodup_cons.1 hnodup
    let next := (p.register method args).2.send w (.call method args p.nextId)
    have hlength : next.seats.length = p.seats.length := List.length_modify _ _ _
    obtain ⟨hids, hsize, hstep⟩ := ih next hrest fun v hv =>
      hlength ▸ hlt v (List.mem_cons_of_mem w hv)
    refine ⟨congrArg Nat.succ hids, hsize.trans hlength, fun {i s} hs => ?_⟩
    by_cases hi : i = w
    · subst hi
      have hnext : next.seats[i]? =
          some { s with inbox := s.inbox ++ [.call method args p.nextId] } := by
        simp [next, send, register, hs]
      exact ⟨fun hnot => absurd List.mem_cons_self hnot, fun _ =>
        ⟨p.nextId, List.mem_cons_self, (hstep hnext).1 hw⟩⟩
    · have hnext : next.seats[i]? = some s := by
        simp [next, send, register, Ne.symm hi, hs]
      obtain ⟨hleft, hsent⟩ := hstep hnext
      refine ⟨fun hnot => hleft fun hmem => hnot (List.mem_cons_of_mem w hmem), fun hmem => ?_⟩
      obtain ⟨id, hid, hseat⟩ := hsent ((List.mem_cons.1 hmem).resolve_left hi)
      exact ⟨id, List.mem_cons_of_mem _ hid, hseat⟩

/-- A broadcast finds every worker without a call, and leaves each with one of its own. -/
structure Broadcast (p : Pool) (method : String) (args : List Datum) (ids : List UInt64) (p' : Pool) :
    Prop where
  length : ids.length = p.seats.length
  size : p'.seats.length = p.seats.length
  queue : p'.queue = p.queue
  seat : ∀ {i : Nat} {s : Seat}, p.seats[i]? = some s → s.inbox = [] ∧ ∃ id ∈ ids,
    p'.seats[i]? = some { s with inbox := [.call method args id] }

theorem queue_sendEach (method : String) (args : List Datum) (workers : List Nat) (p : Pool) :
    (sendEach method args workers p).2.queue = p.queue := by
  induction workers generalizing p with
  | nil => rfl
  | cons w rest ih => exact ih _

/-- Either all workers were ready, or nothing is sent. -/
theorem Orderly.submitAll_cases (h : Orderly p) (method : String) (args : List Datum) :
    (∃ ids, (p.submitAll method args).1 = .ok ids ∧
        Broadcast p method args ids (p.submitAll method args).2) ∨
      (∃ e, p.submitAll method args = (.error e, p)) := by
  simp only [submitAll]
  split_ifs with hclosed hbusy
  · exact .inr ⟨_, rfl⟩
  · exact .inr ⟨_, rfl⟩
  · -- As many different workers are ready as there are, so all of them are.
    have hready : p.ready.Perm (List.range p.seats.length) :=
      (List.subperm_of_subset h.nodup_ready fun i hi => List.mem_range.2 (h.ready hi)).perm_of_length_le
        (by simpa [size] using hbusy)
    obtain ⟨hids, hsize, hstep⟩ := sendEach_seats method args { p with ready := [] } h.nodup_ready
      fun w hw => h.ready hw
    refine .inl ⟨_, rfl, ?_, hsize, queue_sendEach method args p.ready _, fun {i s} hs => ?_⟩
    · rw [hids, hready.length_eq, List.length_range]
    · have hi : i ∈ p.ready := hready.mem_iff.2 (List.mem_range.2 (List.getElem?_eq_some_iff.1 hs).1)
      obtain ⟨t, ht, -, hinbox, -, -⟩ := h.seat_of_ready hi
      cases hs.symm.trans ht
      obtain ⟨id, hid, hseat⟩ := (hstep hs).2 hi
      rw [hinbox] at hseat
      exact ⟨hinbox, id, hid, hseat⟩

/-! ## What a turn does to a worker -/

inductive Handled (p : Pool) (a : Action) (i : Nat) (s : Seat) : Seat → Prop
  | left {s' : Seat} (hworker : s'.worker = s.worker) (hinbox : s'.inbox = s.inbox) : Handled p a i s s'
  | given {s' : Seat} {m : Message} (hworker : s'.worker = s.worker) (hfree : s.inbox = [])
      (hinbox : s'.inbox = [m]) (hm : m ∈ p.queue ∨ m ∈ p.accepts a) : Handled p a i s s'
  | did {transformer : Transformer} {files : FileTree} {method : String} {args : List Datum}
      {id : UInt64} (ha : a = .execute transformer files i) (hinbox : s.inbox = [.call method args id])
      (hperforms : p.performs a = [(i, .call method args id)]) :
      Handled p a i s
        { worker := ((s.worker.call transformer method args).run files).1.2, inbox := []
          announcing := true }

theorem handled_send {w : Nat} {call : Message} {t : Seat} (hw : p.seats[w]? = some t)
    (hfree : t.inbox = []) (hcall : call ∈ p.queue ∨ call ∈ p.accepts a) (hseats : p'.seats = p.seats)
    (hs : p.seats[i]? = some s) : ∃ s', (p'.send w call).seats[i]? = some s' ∧ Handled p a i s s' := by
  by_cases hi : i = w
  · subst hi
    cases hs.symm.trans hw
    refine ⟨{ s with inbox := s.inbox ++ [call] }, by simp [send, hseats, hs], ?_⟩
    exact .given rfl hfree (by simp [hfree]) hcall
  · exact ⟨s, by simp [send, hseats, Ne.symm hi, hs], .left rfl rfl⟩

theorem Orderly.seat_submit (h : Orderly p) (hs : p.seats[i]? = some s) :
    ∃ s', (p.act (.submit method args)).seats[i]? = some s' ∧
      Handled p (.submit method args) i s s' := by
  cases hclosed : p.closed with
  | true =>
    have hrefused : p.submit method args = (.error .closed, p) := by simp [submit, hclosed]
    exact ⟨s, by simp [Pool.act, hrefused, hs], .left rfl rfl⟩
  | false =>
    cases hready : p.ready with
    | nil => exact ⟨s, by simp [Pool.act, submit, hclosed, register, hready, hs], .left rfl rfl⟩
    | cons w rest =>
      obtain ⟨t, ht, -, hinbox, -, -⟩ := h.seat_of_ready (w := w) (by simp [hready])
      have hsubmit := submit_of_ready method args hclosed hready
      rw [Pool.act, hsubmit]
      exact handled_send ht hinbox (.inr (by simp [accepts, hsubmit, Except.toOption])) rfl hs

theorem Orderly.seat_deliver (h : Orderly p) (hs : p.seats[i]? = some s) :
    ∃ s', (p.act .deliver).seats[i]? = some s' ∧ Handled p .deliver i s s' := by
  rw [Pool.act]
  obtain ⟨-, heq⟩ | ⟨w, result, error, id, rest, -, heq⟩ | ⟨w, rest, hmail, heq⟩ := h.deliver_cases
  · exact ⟨s, by rw [heq, hs], .left rfl rfl⟩
  · refine ⟨s, ?_, .left rfl rfl⟩
    rw [heq, complete, answer]
    split <;> exact hs
  · rw [heq, workerReady]
    split_ifs with hclosed
    · exact ⟨s, hs, .left rfl rfl⟩
    · cases hqueue : p.queue with
      | nil => exact ⟨s, by simpa [hqueue] using hs, .left rfl rfl⟩
      | cons call more =>
        obtain ⟨t, ht, hinbox, -⟩ := h.seat_of_mail hmail
        exact handled_send ht hinbox (.inl (by simp [hqueue])) rfl hs

theorem performs_of_rests (h : p.Rests a) : p.performs a = [] := by
  cases a with
  | execute transformer files i => cases hs : p.seats[i]? <;> simp [performs, hs, h _]
  | _ => rfl

theorem performs_call {transformer : Transformer} {files : FileTree} (hs : p.seats[i]? = some s)
    (hannouncing : s.announcing = false) (hinbox : s.inbox = [.call method args id]) :
    p.performs (.execute transformer files i) = [(i, .call method args id)] := by
  simp [performs, hs, hannouncing, hinbox]

theorem Orderly.seat_execute (h : Orderly p) {transformer : Transformer} {files : FileTree} {j : Nat}
    (hs : p.seats[i]? = some s) :
    ∃ s', (p.act (.execute transformer files j)).seats[i]? = some s' ∧
      Handled p (.execute transformer files j) i s s' := by
  rw [Pool.act]
  obtain hidle | ⟨t, method, args, id, ht, hannouncing, hinbox⟩ := h.idle_or_called j
  · exact ⟨s, by rw [execute_idle hidle, hs], .left rfl rfl⟩
  · rw [execute_call ht hannouncing hinbox]
    by_cases hi : i = j
    · subst hi
      cases hs.symm.trans ht
      exact ⟨_, by simp [(List.getElem?_eq_some_iff.1 hs).1],
        .did rfl hinbox (performs_call hs hannouncing hinbox)⟩
    · exact ⟨s, by simp [Ne.symm hi, hs], .left rfl rfl⟩

theorem seat_announce {j : Nat} (hs : p.seats[i]? = some s) :
    ∃ s', (p.act (.announce j)).seats[i]? = some s' ∧ Handled p (.announce j) i s s' := by
  rw [act, announce]
  split
  · exact ⟨s, hs, .left rfl rfl⟩
  · next t ht =>
    split_ifs
    · by_cases hi : i = j
      · subst hi
        cases hs.symm.trans ht
        exact ⟨{ s with announcing := false }, by simp [(List.getElem?_eq_some_iff.1 hs).1],
          .left rfl rfl⟩
      · exact ⟨s, by simp [Ne.symm hi, hs], .left rfl rfl⟩
    · exact ⟨s, hs, .left rfl rfl⟩

theorem seat_shutdown (hs : p.seats[i]? = some s) :
    ∃ s', (p.act .shutdown).seats[i]? = some s' ∧ Handled p .shutdown i s s' := by
  rw [act, shutdown]
  split_ifs <;> exact ⟨s, hs, .left rfl rfl⟩

theorem Orderly.seat_act (h : Orderly p) (ha : ∀ method args, a ≠ .submitAll method args)
    (hs : p.seats[i]? = some s) : ∃ s', (p.act a).seats[i]? = some s' ∧ Handled p a i s s' := by
  cases a with
  | submit method args => exact h.seat_submit hs
  | submitAll method args => exact absurd rfl (ha method args)
  | announce j => exact seat_announce hs
  | execute transformer files j => exact h.seat_execute hs
  | deliver => exact h.seat_deliver hs
  | shutdown => exact seat_shutdown hs

theorem Orderly.length_run (h : Orderly p) (schedule : List Action) :
    (schedule.foldl Pool.act p).seats.length = p.seats.length :=
  (h.run (P := fun _ q => q.seats.length = p.seats.length)
    (fun _ ht hq => by cases ht <;> simpa using hq) [] rfl schedule).2

theorem Orderly.exists_seat (h : Orderly p) {s' : Seat} (hs : (p.act a).seats[i]? = some s') :
    ∃ s, p.seats[i]? = some s := by
  have hlength : (p.act a).seats.length = p.seats.length := h.length_run [a]
  exact ⟨_, List.getElem?_eq_getElem (hlength ▸ (List.getElem?_eq_some_iff.1 hs).1)⟩

theorem Orderly.queue_act (h : Orderly p) (hm : m ∈ (p.act a).queue)
    (ha : ∀ method args, a ≠ .submitAll method args) : m ∈ p.queue ∨ m ∈ p.accepts a := by
  have ht := h.act_turn ha
  generalize p.accepts a = new, p.act a = p' at hm ht
  cases ht with
  | enqueue method args hopen hready => simpa using hm
  | dequeue hopen hmail hqueue hs hinbox => exact .inl (hqueue ▸ List.mem_cons_of_mem _ hm)
  | shutdown hopen => cases hm
  | _ => exact .inl hm

theorem Orderly.busy_act (h : Orderly p) (hs : p.seats[i]? = some s) (hinbox : s.inbox = [m])
    (a : Action) :
    (i, m) ∈ p.performs a ∨ ∃ s', (p.act a).seats[i]? = some s' ∧ s'.inbox = [m] := by
  by_cases ha : ∃ method args, a = .submitAll method args
  · obtain ⟨method, args, rfl⟩ := ha
    obtain ⟨ids, hids, hall⟩ | ⟨e, he⟩ := h.submitAll_cases method args
    · simp [(hall.seat hs).1] at hinbox
    · exact .inr ⟨s, by simpa [Pool.act, he] using hs, hinbox⟩
  · obtain ⟨s', hs', hhandled⟩ := h.seat_act (fun method args heq => ha ⟨method, args, heq⟩) hs
    cases hhandled with
    | left hworker heq => exact .inr ⟨s', hs', heq.trans hinbox⟩
    | given _ hfree => simp [hfree] at hinbox
    | did _ hcall hperforms =>
      rw [hinbox] at hcall
      cases hcall
      exact .inl (hperforms ▸ List.mem_singleton_self _)

theorem Orderly.busy_run (h : Orderly p) (hs : p.seats[i]? = some s) (hinbox : s.inbox = [m])
    (schedule : List Action) :
    (i, m) ∈ p.performed schedule ∨
      ∃ s', (schedule.foldl Pool.act p).seats[i]? = some s' ∧ s'.inbox = [m] := by
  induction schedule generalizing p s with
  | nil => exact .inr ⟨s, hs, hinbox⟩
  | cons a schedule ih =>
    obtain hdone | ⟨s', hs', hinbox'⟩ := h.busy_act hs hinbox a
    · exact .inl (List.mem_append_left _ hdone)
    · exact (ih (h.act a) hs' hinbox').imp_left (List.mem_append_right _)

/-! ## Which calls were done -/

def doneIds (done : List (Nat × Message)) : List UInt64 := done.filterMap (·.2.callId?)

theorem doneIds_append (done more : List (Nat × Message)) :
    doneIds (done ++ more) = doneIds done ++ doneIds more := List.filterMap_append

variable {calls : List Message}

theorem Orderly.count_act (h : Orderly p) (hconserved : Conserved calls p) (hopen : p.closed = false)
    (ha : a ≠ .shutdown) (id : UInt64) :
    (p.act a).answered.count id + (p.act a).returning.count id =
      p.answered.count id + p.returning.count id + (doneIds (p.performs a)).count id := by
  have heffect := h.effect a
  have hanswered : (p.act a).answered = (p.act a).face.1.map (·.1) := rfl
  have hreturning : (p.act a).returning = (p.act a).face.2.1.filterMap fun m => m.2.answeredId? := rfl
  rw [hanswered, hreturning]
  generalize (p.act a).face = seen at heffect ⊢
  cases heffect with
  | idle hrests =>
    rw [performs_of_rests hrests]
    rfl
  | announce i => simp [answered, returning, Message.ready, Message.answeredId?, performs, doneIds]
  | @execute i s method args x transformer files hs hannouncing hinbox =>
    obtain ⟨result, error, hreply⟩ :=
      ofOutcome_eq x ((s.worker.call transformer method args).run files).1.1
    rw [performs_call hs hannouncing hinbox]
    simp [hreply, answered, returning, doneIds, Message.answeredId?, Message.callId?, Nat.add_assoc]
  | @skip first rest hmail hnone =>
    cases hfirst : first.2.answeredId? with
    | none => simp [answered, returning, hmail, hfirst, performs, doneIds]
    | some x =>
      -- A report that is on the way is about a call without an answer.
      have hnot := List.count_eq_zero.2 (not_mem_unanswered_of_lookup (hnone x hfirst))
      have hplaces := hconserved.unanswered_eq hopen x
      simp only [unanswered, returning, hmail, List.filterMap_cons, hfirst] at hnot hplaces
      rw [hnot, List.count_cons_self] at hplaces
      omega
  | answer hreturns =>
    obtain ⟨-, w, result, error, rest, method, hmail, -⟩ := hreturns
    simp only [answered, returning, hmail, List.tail_cons, Message.answeredId?, List.map_cons,
      List.filterMap_cons, List.count_cons, performs, doneIds, List.filterMap_nil, List.count_nil]
    omega
  | shutdown => exact absurd rfl ha

theorem Accounts.count_run (h : Accounts calls p) (ho : Orderly p) (hopen : p.closed = false)
    (hnot : .shutdown ∉ schedule) (hsize : (calls ++ p.accepted schedule).length ≤ UInt64.size)
    (id : UInt64) :
    (schedule.foldl act p).answered.count id + (schedule.foldl act p).returning.count id =
      p.answered.count id + p.returning.count id + (doneIds (p.performed schedule)).count id := by
  induction schedule generalizing p calls with
  | nil => rfl
  | cons a schedule ih =>
    have ha : a ≠ .shutdown := fun heq => hnot (heq ▸ List.mem_cons_self)
    have hrest : .shutdown ∉ schedule := fun hmem => hnot (List.mem_cons_of_mem _ hmem)
    have hcalls : calls.length ≤ UInt64.size := by
      rw [List.length_append] at hsize
      omega
    have hstep := ho.count_act (h.conserved (h.numbered.nodup hcalls)) hopen ha id
    obtain ⟨ho', h'⟩ := ho.run (P := Accounts) (fun ho ht h => h.turn ho ht) calls h [a]
    simp only [accepted, List.append_nil, List.foldl_cons, List.foldl_nil] at h' ho'
    have hsum := ih h' ho' ((ho.closed_act ha).trans hopen) hrest
      (by simpa only [accepted, List.append_assoc] using hsize)
    rw [List.foldl_cons, performed, doneIds_append, List.count_append]
    omega

theorem Accounts.not_mem_inbox (h : Accounts calls p) (hsize : calls.length ≤ UInt64.size)
    (hopen : p.closed = false) (hs : p.seats[i]? = some s) (hid : id ∈ p.answered) :
    .call method args id ∉ s.inbox := by
  intro hm
  have hcall : id ∈ calls.filterMap Message.callId? :=
    List.mem_filterMap.2 ⟨_, h.inOrder.inbox hs hm, rfl⟩
  have hworker : id ∈ p.atWorkers :=
    List.mem_flatMap.2 ⟨s, List.mem_of_getElem? hs, List.mem_filterMap.2 ⟨_, hm, rfl⟩⟩
  have hplace := h.one_place hsize hopen hcall
  have hanswered := List.count_pos_iff.2 hid
  have hat := List.count_pos_iff.2 hworker
  omega

theorem eq_of_callId? {m m' : Message} (hnodup : (calls.filterMap Message.callId?).Nodup)
    (hm : m ∈ calls) (hm' : m' ∈ calls) (hid : m.callId? = some id) (hid' : m'.callId? = some id) :
    m = m' := by
  induction calls with
  | nil => cases hm
  | cons c calls ih =>
    rw [List.filterMap_cons] at hnodup
    have hfirst {x y : Message} (hx : x = c) (hy : y ∈ calls) (hxid : x.callId? = some id)
        (hyid : y.callId? = some id) : False := by
      rw [← hx, hxid] at hnodup
      exact (List.nodup_cons.1 hnodup).1 (List.mem_filterMap.2 ⟨y, hy, hyid⟩)
    obtain heq | hlater := List.mem_cons.1 hm
    · obtain heq' | hlater' := List.mem_cons.1 hm'
      · rw [heq, heq']
      · exact (hfirst heq hlater' hid hid').elim
    · obtain heq' | hlater' := List.mem_cons.1 hm'
      · exact (hfirst heq' hlater hid' hid).elim
      · refine ih ?_ hlater hlater'
        split at hnodup
        · exact hnodup
        · exact hnodup.of_cons

theorem accounts_run (size : Nat) (schedule : List Action) :
    Orderly (schedule.foldl act (ofSize size)) ∧
      Accounts ((ofSize size).accepted schedule) (schedule.foldl act (ofSize size)) :=
  (orderly_ofSize size).run (P := Accounts) (fun ho ht h => h.turn ho ht) [] (accounts_ofSize size)
    schedule

theorem nodup_doneIds {size : Nat} (hshut : .shutdown ∉ schedule)
    (hsize : ((ofSize size).accepted schedule).length ≤ UInt64.size) :
    (doneIds ((ofSize size).performed schedule)).Nodup := by
  obtain ⟨-, haccounts⟩ := accounts_run size schedule
  have hopen := (orderly_ofSize size).closed_of_not_mem rfl hshut
  have hnodup := haccounts.numbered.nodup hsize
  refine List.nodup_iff_count_le_one.2 fun id => ?_
  have hdone := (accounts_ofSize size).count_run (orderly_ofSize size) rfl hshut hsize id
  have haccepted := (haccounts.conserved hnodup).accepted_eq id
  have hplaces := (haccounts.conserved hnodup).unanswered_eq hopen id
  have hle := List.nodup_iff_count_le_one.1 hnodup id
  omega

theorem exists_call_of_answer {size : Nat} {answer : Datum}
    (hmem : (id, Except.ok answer) ∈ (schedule.foldl act (ofSize size)).answers) :
    ∃ (w : Worker) (transformer : Transformer) (files : FileTree) (method : String)
      (args : List Datum) (value : Datum),
      .call method args id ∈ (ofSize size).accepted schedule ∧
        ((w.call transformer method args).run files).1.1 = .ok value := by
  obtain ⟨before, a, after, rfl, hreturns | hcloses⟩ := (orderly_ofSize size).happened
    (R := fun q => (id, Except.ok answer) ∈ q.answers) (fun hq hr => hq.answers_act hr)
    (by simp [ofSize]) hmem
  · obtain ⟨-, w, result, error, rest, method, hmail, -, ⟨rfl, -⟩ | ⟨m, -, hm⟩⟩ := hreturns
    · have hreport : (w, .answer result none id) ∈ (before.foldl act (ofSize size)).mail := by
        rw [hmail]
        exact List.mem_cons_self
      obtain ⟨first, b, later, rfl, hexecutes⟩ := (orderly_ofSize size).happened
        (R := fun q => (w, .answer result none id) ∈ q.mail) (fun hq hr => hq.mail_act hr)
        (by simp [ofSize]) hreport
      obtain ⟨transformer, files, s, method, args, -, hs, hinbox, hreply⟩ := hexecutes
      have hcall := (accounts_run size first).2.inOrder.inbox hs (hinbox ▸ List.mem_cons_self)
      refine ⟨s.worker, transformer, files, method, args, ?_⟩
      cases houtcome : ((s.worker.call transformer method args).run files).1.1 with
      | ok value =>
        refine ⟨value, ?_, rfl⟩
        rw [List.append_assoc, accepted_append]
        exact List.mem_append_left _ hcall
      | error m =>
        rw [houtcome] at hreply
        cases hreply
    · cases hm
  · obtain ⟨-, -, -, houtcome⟩ := hcloses
    cases houtcome

/-! ## Taking turns -/

inductive Inner : Action → Prop
  | announce (i : Nat) : Inner (.announce i)
  | execute (transformer : Transformer) (files : FileTree) (i : Nat) :
    Inner (.execute transformer files i)
  | deliver : Inner .deliver

theorem turn_inner (p : Pool) (transformer : Transformer) (files : FileTree) :
    ∃ inner : List Action, (∀ a ∈ inner, Inner a) ∧
      ((p.turn transformer).run files).1 = inner.foldl act p := by
  rw [turn]
  split_ifs
  · exact ⟨[.deliver], by simp [Inner.deliver], rfl⟩
  · split
    · next i _ => exact ⟨[.announce i], by simp [Inner.announce], rfl⟩
    · split
      · next i _ => exact ⟨[.execute transformer files i], by simp [Inner.execute], rfl⟩
      · exact ⟨[], by simp, rfl⟩

theorem turns_inner (transformer : Transformer) (n : Nat) (p : Pool) (files : FileTree) :
    ∃ inner : List Action, (∀ a ∈ inner, Inner a) ∧
      ((turns transformer n p).run files).1 = inner.foldl act p := by
  induction n generalizing p files with
  | zero => exact ⟨[], by simp, rfl⟩
  | succ n ih =>
    obtain ⟨first, hfirst, hturn⟩ := turn_inner p transformer files
    obtain ⟨rest, hrest, hturns⟩ :=
      ih ((p.turn transformer).run files).1 ((p.turn transformer).run files).2
    refine ⟨first ++ rest, fun a ha => (List.mem_append.1 ha).elim (hfirst a) (hrest a), ?_⟩
    rw [List.foldl_append, ← hturn, ← hturns]
    rfl

theorem answers_of_mapM {ids : List UInt64} {values : List Datum}
    (h : ids.mapM (fun id => (p.answer? id).getD (.error .closed)) = .ok values) :
    ∀ id ∈ ids, ∃ value, (id, Except.ok value) ∈ p.answers := by
  induction ids generalizing values with
  | nil => simp
  | cons id ids ih =>
    rw [List.mapM_cons] at h
    cases hanswer : p.answer? id with
    | none =>
      rw [hanswer] at h
      cases h
    | some outcome =>
      rw [hanswer] at h
      cases outcome with
      | error e => cases h
      | ok value =>
        cases hrest : ids.mapM (fun id => (p.answer? id).getD (.error .closed)) with
        | error e =>
          rw [hrest] at h
          cases h
        | ok values =>
          intro x hx
          obtain rfl | hx := List.mem_cons.1 hx
          · obtain ⟨l₁, l₂, heq, -⟩ := List.lookup_eq_some_iff.1 hanswer
            exact ⟨value, by simp [heq]⟩
          · exact ih hrest x hx

theorem call_inner (p : Pool) (transformer : Transformer) (method : String) (args : List Datum)
    (files : FileTree) :
    ∃ inner : List Action, (∀ a ∈ inner, Inner a) ∧
      ((p.call transformer method args).run files).1.2 =
        (.submit method args :: inner).foldl act p := by
  cases hsubmit : p.submit method args with
  | mk outcome q =>
    have hact : p.act (.submit method args) = q := by rw [act, hsubmit]
    rw [call, hsubmit]
    cases outcome with
    | error e => exact ⟨[], by simp, hact.symm⟩
    | ok id =>
      obtain ⟨inner, hinner, hturns⟩ := turns_inner transformer q.work q files
      exact ⟨inner, hinner, by rw [List.foldl_cons, hact, ← hturns]; rfl⟩

theorem callAll_inner (p : Pool) (transformer : Transformer) (method : String) (args : List Datum)
    (files : FileTree) :
    let done := ((p.callAll transformer method args).run files).1
    ∃ inner : List Action, (∀ a ∈ inner, Inner a) ∧
      done.2 = (.submitAll method args :: inner).foldl act p ∧
      ∀ values, done.1 = .ok values → ∃ ids, (p.submitAll method args).1 = .ok ids ∧
        ∀ id ∈ ids, ∃ value, (id, Except.ok value) ∈ done.2.answers := by
  cases hsubmit : p.submitAll method args with
  | mk outcome q =>
    have hact : p.act (.submitAll method args) = q := by rw [act, hsubmit]
    rw [callAll, hsubmit]
    cases outcome with
    | error e => exact ⟨[], by simp, hact.symm, fun _ h => by cases h⟩
    | ok ids =>
      obtain ⟨inner, hinner, hturns⟩ := turns_inner transformer q.work q files
      refine ⟨inner, hinner, by rw [List.foldl_cons, hact, ← hturns]; rfl, fun values hvalues => ?_⟩
      exact ⟨ids, rfl, answers_of_mapM hvalues⟩

end ClassForge.Pool
