import ClassForge.Compilation.Backend
import ClassForge.Proofs.Compilation.Broadcast
import ClassForge.Proofs.Dependency.Mentions

/-!
# Snapshots of the workers

A worker either has the call of the last broadcast still to do, or it has done it, and all workers
that have done it hold the same snapshot.
-/

namespace ClassForge

/-! ## What a worker makes of a call -/

def Message.updates : Message → Bool
  | call method _ _ => method = Worker.setSnapshot
  | _ => false

def Snapshot.text (s : Snapshot) : Datum := .ofJson (.string (Json.encode s).render)

namespace Worker

/-- The snapshot of a worker after it has been sent one. -/
def installed (arg : Datum) (old : Snapshot) : Snapshot :=
  match readSnapshot arg.json with
  | .ok snapshot => snapshot
  | .error _ => old

variable {w : Worker} {transformer : Transformer} {files : FileTree} {method : String}
  {args : List Datum}

theorem call_setSnapshot (arg : Datum) :
    (w.call transformer setSnapshot [arg]).run files =
      (((readSnapshot arg.json).map fun _ => .ofJson (.bool true),
        { w with snapshot := installed arg w.snapshot }), files) := by
  simp only [call, if_true, installed]
  cases readSnapshot arg.json <;> rfl

theorem call_of_ne (h : method ≠ setSnapshot) :
    ((w.call transformer method args).run files).1.2 = w := by
  simp only [call, if_neg h]
  split_ifs
  · split
    · rfl
    · split <;> rfl
  · rfl
  · rfl

theorem call_of_error {message : String}
    (h : ((w.call transformer method args).run files).1.1 = .error message) :
    ((w.call transformer method args).run files).1.2 = w := by
  by_cases hmethod : method = setSnapshot
  · subst hmethod
    cases args with
    | nil => rfl
    | cons arg rest =>
      simp only [call, if_true] at h ⊢
      cases hread : readSnapshot arg.json with
      | ok snapshot =>
        rw [hread] at h
        cases h
      | error m => rfl
  · exact call_of_ne hmethod

theorem compile_alike {s : Snapshot} (h : s.Alike w.snapshot) (r : CompileRequest) :
    w.compile transformer r = { w with snapshot := s }.compile transformer r := by
  have hplan : Compilation.plan r w.snapshot.resolver = Compilation.plan r s.resolver := by
    funext transformer time source
    simp only [Compilation.plan, Dependency.ofSource?_alike h.resolver]
  have hcompile : Compilation.compile r w.snapshot.resolver = Compilation.compile r s.resolver := by
    funext transformer
    simp only [Compilation.compile, hplan]
  simp only [compile, hcompile]

theorem call_compileClass (r : CompileRequest) :
    (w.call transformer compileClass [.ofJson (Json.encode r)]).run files =
      let done := (w.compile transformer r).run files
      ((done.1, w), done.2) := by
  have hne : compileClass ≠ setSnapshot := by decide
  simp only [call, if_neg hne, if_true, decode_canonical_request]
  rfl

end Worker

namespace Pool

variable {p p' : Pool} {i : Nat} {s : Seat} {method : String} {args : List Datum} {a : Action}
  {schedule : List Action}

/-! ## What the workers hold -/

def update (s : Snapshot) : Action := .submitAll Worker.setSnapshot [s.text]

def compile (r : CompileRequest) : Action := .submit Worker.compileClass [.ofJson (Json.encode r)]

/-- The turns of a pool whose callers install snapshots and compile classes. -/
inductive Serving : Action → Prop
  | update (s : Snapshot) : Serving (update s)
  | compile (r : CompileRequest) : Serving (compile r)
  | inner {a : Action} (h : Inner a) : Serving a

/-- A caller's attempt to install a snapshot finds all workers ready. -/
def Broadcasts (p : Pool) (a : Action) : Prop :=
  ∃ s ids, a = update s ∧ (p.submitAll Worker.setSnapshot [s.text]).1 = .ok ids

inductive Installs (arg : Datum) (old : Snapshot) (ids : List UInt64) (s : Seat) : Prop
  | todo {id : UInt64} (hid : id ∈ ids) (hinbox : s.inbox = [.call Worker.setSnapshot [arg] id])
      (hsnapshot : s.worker.snapshot = old)
  | done (hinbox : ∀ m ∈ s.inbox, m.updates = false)
      (hsnapshot : s.worker.snapshot = Worker.installed arg old)

/-- All workers held `old` at the last broadcast, in which they were sent `arg`. -/
structure Shared (arg : Datum) (old : Snapshot) (ids : List UInt64) (p : Pool) : Prop where
  queue : ∀ m ∈ p.queue, m.updates = false
  seat : ∀ {i : Nat} {s : Seat}, p.seats[i]? = some s → Installs arg old ids s

variable {arg : Datum} {old : Snapshot} {ids : List UInt64}

theorem shared_ofSize (size : Nat) : Shared (.ofJson .null) {} [] (ofSize size) where
  queue m hm := by cases hm
  seat hs := by
    obtain ⟨j, -, rfl⟩ := List.mem_map.1 (List.mem_of_getElem? hs)
    exact .done (by simp) rfl

theorem Installs.handled {s' : Seat} (h : Installs arg old ids s) (hhandled : Handled p a i s s')
    (hcalls : ∀ m, m ∈ p.queue ∨ m ∈ p.accepts a → m.updates = false) : Installs arg old ids s' := by
  cases hhandled with
  | left hworker hinbox =>
    cases h with
    | todo hid htodo hsnapshot => exact .todo hid (hinbox.trans htodo) (hworker ▸ hsnapshot)
    | done hnone hsnapshot => exact .done (hinbox ▸ hnone) (hworker ▸ hsnapshot)
  | @given _ m hworker hfree hinbox hm =>
    cases h with
    | todo hid htodo _ => simp [hfree] at htodo
    | done hnone hsnapshot =>
      refine .done (fun m' hm' => ?_) (hworker ▸ hsnapshot)
      rw [hinbox, List.mem_singleton] at hm'
      exact hm' ▸ hcalls m hm
  | @did transformer files method args id ha hinbox hperforms =>
    refine .done (by simp) ?_
    cases h with
    | todo hid htodo hsnapshot =>
      rw [hinbox] at htodo
      cases htodo
      rw [Worker.call_setSnapshot, hsnapshot]
    | done hnone hsnapshot =>
      have hne : method ≠ Worker.setSnapshot := by
        have := hnone (.call method args id) (by simp [hinbox])
        simpa [Message.updates] using this
      rw [Worker.call_of_ne hne, hsnapshot]

theorem Shared.broadcast (h : Shared arg old ids p) {new : Datum} {numbers : List UInt64}
    (hsent : Broadcast p Worker.setSnapshot [new] numbers p') :
    Shared new (Worker.installed arg old) numbers p' where
  queue m hm := h.queue m (hsent.queue ▸ hm)
  seat {i s'} hs' := by
    obtain ⟨s, hs⟩ : ∃ s, p.seats[i]? = some s :=
      ⟨_, List.getElem?_eq_getElem (hsent.size ▸ (List.getElem?_eq_some_iff.1 hs').1)⟩
    obtain ⟨hfree, id, hid, hseat⟩ := hsent.seat hs
    cases hs'.symm.trans hseat
    cases h.seat hs with
    | todo _ htodo _ => simp [hfree] at htodo
    | done _ hsnapshot => exact .todo hid rfl hsnapshot

/-- A broadcast finds all workers with the same snapshot, and every other turn leaves it at that. -/
theorem Shared.act (h : Shared arg old ids p) (ho : Orderly p) (ha : Serving a) :
    Shared arg old ids (p.act a) ∨ ∃ s new, a = update s ∧
      (p.submitAll Worker.setSnapshot [s.text]).1 = .ok new ∧
      Shared s.text (Worker.installed arg old) new (p.act a) := by
  by_cases hall : ∃ s, a = update s
  · obtain ⟨s, rfl⟩ := hall
    obtain ⟨new, hnew, hsent⟩ | ⟨e, he⟩ := ho.submitAll_cases Worker.setSnapshot [s.text]
    · exact .inr ⟨s, new, rfl, hnew, h.broadcast hsent⟩
    · have hsame : p.act (update s) = p := by simp [Pool.act, update, he]
      rw [hsame]
      exact .inl h
  · have hsingle : ∀ method args, a ≠ .submitAll method args := by
      rintro method args rfl
      cases ha with
      | update s => exact hall ⟨s, rfl⟩
      | inner h => cases h
    have haccepts : ∀ m ∈ p.accepts a, m.updates = false := by
      cases ha with
      | update s => exact absurd ⟨s, rfl⟩ hall
      | compile r =>
        intro m hm
        obtain ⟨id, -, rfl⟩ := List.mem_map.1 hm
        rfl
      | inner h => cases h <;> simp [accepts]
    have hcalls (m : Message) (hm : m ∈ p.queue ∨ m ∈ p.accepts a) : m.updates = false :=
      hm.elim (h.queue m) (haccepts m)
    refine .inl ⟨fun m hm => hcalls m (ho.queue_act hm hsingle), fun {i t'} ht' => ?_⟩
    obtain ⟨t, ht⟩ := ho.exists_seat ht'
    obtain ⟨t'', ht'', hhandled⟩ := ho.seat_act hsingle ht
    cases ht'.symm.trans ht''
    exact (h.seat ht).handled hhandled hcalls

theorem Shared.run (h : Shared arg old ids p) (ho : Orderly p) (hserving : ∀ a ∈ schedule, Serving a) :
    ∃ arg' old' ids', Shared arg' old' ids' (schedule.foldl Pool.act p) ∧
      (¬Happened Pool.act p schedule Broadcasts → arg' = arg ∧ old' = old ∧ ids' = ids) := by
  induction schedule generalizing p arg old ids with
  | nil => exact ⟨arg, old, ids, h, fun _ => ⟨rfl, rfl, rfl⟩⟩
  | cons a schedule ih =>
    have hrest : ∀ b ∈ schedule, Serving b := fun b hb => hserving b (List.mem_cons_of_mem a hb)
    obtain hsame | ⟨s, new, heq, hnew, hshared⟩ := h.act ho (hserving a List.mem_cons_self)
    · obtain ⟨arg', old', ids', hend, hkept⟩ := ih hsame (ho.act a) hrest
      exact ⟨arg', old', ids', hend, fun hnot => hkept fun hlater => hnot hlater.tail⟩
    · obtain ⟨arg', old', ids', hend, -⟩ := ih hshared (ho.act a) hrest
      exact ⟨arg', old', ids', hend, fun hnot => absurd (.head ⟨s, new, heq, hnew⟩) hnot⟩

/-! ## All or nothing -/

/-- A caller has installed a snapshot: the broadcast was accepted after `before`, and by the end of
`after` all its calls have been answered without an error. -/
structure Installed (start : Pool) (before : List Action) (s : Snapshot) (after : List Action)
    (ids : List UInt64) : Prop where
  accepted : ((before.foldl act start).submitAll Worker.setSnapshot [s.text]).1 = .ok ids
  answered : ∀ id ∈ ids, ∃ answer,
    (id, Except.ok answer) ∈ ((before ++ update s :: after).foldl act start).answers

def Updating (p : Pool) : Prop := ∃ s ∈ p.seats, ∃ m ∈ s.inbox, m.updates = true

/-- What holds of the snapshots of the workers of a pool that was new before the schedule: `p` is the
pool after it. -/
structure AllOrNothing (start : Pool) (schedule : List Action) (p : Pool) : Prop where
  same : ¬p.Updating → ∀ s ∈ p.seats, ∀ t ∈ p.seats, s.worker.snapshot = t.worker.snapshot
  quiet : (start.accepted schedule).length ≤ UInt64.size →
    (∀ m ∈ start.accepted schedule, m.updates = true → ∀ id, m.callId? = some id → id ∈ p.answered) →
    ¬p.Updating
  once : (start.accepted schedule).length ≤ UInt64.size → ∀ before s after ids,
    schedule = before ++ update s :: after → Installed start before s after ids →
    (((start.performed schedule).filter fun c =>
      c.2 ∈ ids.map (.call Worker.setSnapshot [s.text])).map (·.1)).Perm (List.range start.size)
  against : (start.accepted schedule).length ≤ UInt64.size → ∀ before s after ids,
    schedule = before ++ update s :: after → Installed start before s after ids →
    ¬Happened act ((before ++ [update s]).foldl act start) after Broadcasts →
    ∀ seat ∈ p.seats, ∀ transformer files r,
      (seat.worker.call transformer Worker.compileClass [.ofJson (Json.encode r)]).run files =
        let done := ({ seat.worker with snapshot := s }.compile transformer r).run files
        ((done.1, seat.worker), done.2)
  failed : ∀ {w result message id a}, Executes w result (some message) id p a →
    (p.act a).seats[w]?.map (·.worker) = p.seats[w]?.map (·.worker)
  install : ∀ {b : Backend}, b.engine = .pooled p → ∀ files s,
    let done := ((b.install s).run files).1
    ∃ waiting working, (∀ a ∈ waiting ++ working, Inner a) ∧
      done.2.engine = .pooled ((waiting ++ update s :: working).foldl act p) ∧
      (done.1 = .ok () → ∃ ids, Installed start (schedule ++ waiting) s working ids)
  compile : ∀ {b : Backend}, b.engine = .pooled p → ∀ files r,
    ∃ working, (∀ a ∈ working, Inner a) ∧
      ((b.compile r).run files).1.2.engine = .pooled ((compile r :: working).foldl act p)

variable {calls : List Message}

theorem not_shutdown_of_serving (hserving : ∀ a ∈ schedule, Serving a) : .shutdown ∉ schedule := by
  intro hmem
  cases hserving _ hmem with
  | inner h => cases h

theorem Shared.same (h : Shared arg old ids p) (hnot : ¬p.Updating) (hs : s ∈ p.seats) :
    s.worker.snapshot = Worker.installed arg old := by
  obtain ⟨i, hi⟩ := List.getElem?_of_mem hs
  cases h.seat hi with
  | todo _ hinbox _ => exact absurd ⟨s, hs, _, by rw [hinbox, List.mem_singleton], rfl⟩ hnot
  | done _ hsnapshot => exact hsnapshot

theorem Accounts.not_updating (h : Accounts calls p) (hsize : calls.length ≤ UInt64.size)
    (hopen : p.closed = false)
    (hanswered : ∀ m ∈ calls, m.updates = true → ∀ id, m.callId? = some id → id ∈ p.answered) :
    ¬p.Updating := by
  rintro ⟨s, hs, m, hm, hupdates⟩
  obtain ⟨i, hi⟩ := List.getElem?_of_mem hs
  cases m with
  | call method args id =>
    exact h.not_mem_inbox hsize hopen hi (hanswered _ (h.inOrder.inbox hi hm) hupdates id rfl) hm
  | answer => cases hupdates
  | event => cases hupdates

section Installed

variable {size : Nat} {before after : List Action} {snapshot : Snapshot}
  (hserving : ∀ a ∈ before ++ update snapshot :: after, Serving a)
  (hsize : ((ofSize size).accepted (before ++ update snapshot :: after)).length ≤ UInt64.size)
  (hinstalled : Installed (ofSize size) before snapshot after ids)

include hinstalled in
theorem Installed.broadcast :
    Broadcast (before.foldl act (ofSize size)) Worker.setSnapshot [snapshot.text] ids
      ((before ++ [update snapshot]).foldl act (ofSize size)) := by
  obtain ⟨ids', hids, hsent⟩ | ⟨e, he⟩ :=
    (accounts_run size before).1.submitAll_cases Worker.setSnapshot [snapshot.text]
  · rw [hinstalled.accepted] at hids
    cases hids
    rw [List.foldl_append]
    exact hsent
  · have haccepted := hinstalled.accepted
    rw [he] at haccepted
    cases haccepted

include hserving hsize hinstalled in
theorem Installed.not_mem_inbox {id : UInt64} (hid : id ∈ ids)
    (hs : ((before ++ update snapshot :: after).foldl act (ofSize size)).seats[i]? = some s) :
    .call method args id ∉ s.inbox := by
  obtain ⟨answer, hmem⟩ := hinstalled.answered id hid
  have hopen := (orderly_ofSize size).closed_of_not_mem rfl (not_shutdown_of_serving hserving)
  exact (accounts_run size _).2.not_mem_inbox hsize hopen hs (List.mem_map_of_mem hmem)

include hserving hsize hinstalled in
theorem Installed.exists_performed (hi : i < (ofSize size).size) :
    ∃ id ∈ ids, (i, .call Worker.setSnapshot [snapshot.text] id) ∈
      (ofSize size).performed (before ++ update snapshot :: after) := by
  have hlt : i < (before.foldl act (ofSize size)).seats.length := by
    rw [(orderly_ofSize size).length_run before]
    exact hi
  obtain ⟨-, id, hid, hs⟩ := hinstalled.broadcast.seat (List.getElem?_eq_getElem hlt)
  have hsplit : before ++ update snapshot :: after = (before ++ [update snapshot]) ++ after := by simp
  refine ⟨id, hid, ?_⟩
  obtain hdone | ⟨s', hs', hinbox⟩ := (accounts_run size _).1.busy_run hs rfl after
  · rw [hsplit, performed_append]
    exact List.mem_append_right _ hdone
  · rw [← List.foldl_append, ← hsplit] at hs'
    exact absurd (hinbox ▸ List.mem_cons_self) (hinstalled.not_mem_inbox hserving hsize hid hs')

include hserving hsize hinstalled in
theorem Installed.once :
    ((((ofSize size).performed (before ++ update snapshot :: after)).filter fun c =>
      c.2 ∈ ids.map (.call Worker.setSnapshot [snapshot.text])).map (·.1)).Perm
        (List.range (ofSize size).size) := by
  generalize hdone : ((ofSize size).performed (before ++ update snapshot :: after)).filter
    (fun c => c.2 ∈ ids.map (.call Worker.setSnapshot [snapshot.text])) = done
  have hcall : ∀ c ∈ done, ∃ id ∈ ids, c.2.callId? = some id := by
    intro c hc
    rw [← hdone, List.mem_filter] at hc
    obtain ⟨id, hid, heq⟩ := List.mem_map.1 (of_decide_eq_true hc.2)
    exact ⟨id, hid, heq ▸ rfl⟩
  have hworkers : List.range (ofSize size).size ⊆ done.map (·.1) := by
    intro i hi
    obtain ⟨id, hid, hmem⟩ :=
      hinstalled.exists_performed hserving hsize (List.mem_range.1 hi)
    rw [← hdone]
    exact List.mem_map.2 ⟨_, List.mem_filter.2 ⟨hmem, decide_eq_true (List.mem_map_of_mem hid)⟩, rfl⟩
  -- The calls of the broadcast have different numbers, so no more of them were done.
  have hids : (doneIds done).Subperm ids := by
    refine List.subperm_of_subset ?_ fun id hid => ?_
    · rw [← hdone]
      exact (nodup_doneIds (not_shutdown_of_serving hserving) hsize).sublist
        (List.filter_sublist.filterMap _)
    · obtain ⟨c, hc, hcid⟩ := List.mem_filterMap.1 hid
      obtain ⟨id', hid', hcid'⟩ := hcall c hc
      cases hcid.symm.trans hcid'
      exact hid'
  have hlength : done.length ≤ (List.range (ofSize size).size).length := by
    have hall : (doneIds done).length = done.length := by
      rw [doneIds, List.length_filterMap_eq_countP, List.countP_eq_length]
      intro c hc
      obtain ⟨id, -, hid⟩ := hcall c hc
      rw [hid]
      rfl
    rw [← hall, List.length_range, Pool.size, ← (orderly_ofSize size).length_run before,
      ← hinstalled.broadcast.length]
    exact hids.length_le
  exact ((List.subperm_of_subset List.nodup_range hworkers).perm_of_length_le
    (by rwa [List.length_map])).symm

include hsize hinstalled in
theorem Installed.exists_read {id : UInt64} (hid : id ∈ ids) :
    ∃ s', Worker.readSnapshot snapshot.text.json = .ok s' := by
  obtain ⟨answer, hmem⟩ := hinstalled.answered id hid
  obtain ⟨w, transformer, files, method, args, value, hcall, hvalue⟩ := exists_call_of_answer hmem
  have hsent : .call Worker.setSnapshot [snapshot.text] id ∈
      (ofSize size).accepted (before ++ update snapshot :: after) := by
    rw [accepted_append, Pool.accepted]
    refine List.mem_append_right _ (List.mem_append_left _ ?_)
    simp only [accepts, update, hinstalled.accepted, Except.toOption, Option.getD_some]
    exact List.mem_map_of_mem hid
  have hnodup := (accounts_run size (before ++ update snapshot :: after)).2.numbered.nodup hsize
  cases eq_of_callId? hnodup hcall hsent rfl rfl
  rw [Worker.call_setSnapshot] at hvalue
  cases hread : Worker.readSnapshot snapshot.text.json with
  | ok s' => exact ⟨s', rfl⟩
  | error m =>
    rw [hread] at hvalue
    cases hvalue

include hserving hsize hinstalled in
theorem Installed.alike
    (hlast : ¬Happened act ((before ++ [update snapshot]).foldl act (ofSize size)) after Broadcasts)
    (hs : s ∈ ((before ++ update snapshot :: after).foldl act (ofSize size)).seats) :
    snapshot.Alike s.worker.snapshot := by
  have hsplit : before ++ update snapshot :: after = (before ++ [update snapshot]) ++ after := by simp
  obtain ⟨i, hi⟩ := List.getElem?_of_mem hs
  have hbefore : ∀ a ∈ before, Serving a := fun a ha => hserving a (List.mem_append_left _ ha)
  have hafter : ∀ a ∈ after, Serving a := fun a ha => hserving a (by simp [ha])
  obtain ⟨arg, old, ids', hshared, -⟩ := (shared_ofSize size).run (orderly_ofSize size) hbefore
  obtain ⟨_, _, _, hend, hkept⟩ :=
    (hshared.broadcast hinstalled.broadcast).run (accounts_run size _).1 hafter
  obtain ⟨rfl, rfl, rfl⟩ := hkept hlast
  rw [← List.foldl_append, ← hsplit] at hend
  cases hend.seat hi with
  | todo hid hinbox _ =>
    exact absurd (hinbox ▸ List.mem_cons_self) (hinstalled.not_mem_inbox hserving hsize hid hi)
  | done _ hsnapshot =>
    have hlt : i < (ofSize size).size := by
      rw [Pool.size, ← (orderly_ofSize size).length_run (before ++ update snapshot :: after)]
      exact (List.getElem?_eq_some_iff.1 hi).1
    obtain ⟨id, hid, -⟩ := hinstalled.exists_performed hserving hsize hlt
    obtain ⟨s', hread⟩ := hinstalled.exists_read hsize hid
    rw [hsnapshot, Worker.installed, hread]
    exact alike_of_readSnapshot hread

end Installed

theorem Orderly.worker_of_failed (h : Orderly p) {w : Nat} {result : Option Datum} {message : String}
    {id : UInt64} (hexecutes : Executes w result (some message) id p a) :
    (p.act a).seats[w]?.map (·.worker) = p.seats[w]?.map (·.worker) := by
  obtain ⟨transformer, files, s, method, args, rfl, hs, hinbox, hreply⟩ := hexecutes
  have hround := h.round hs
  rw [hinbox] at hround
  have hworker : ((s.worker.call transformer method args).run files).1.2 = s.worker := by
    cases houtcome : ((s.worker.call transformer method args).run files).1.1 with
    | ok value =>
      rw [houtcome] at hreply
      cases hreply
    | error m => exact Worker.call_of_error houtcome
  rw [Pool.act, execute_call hs hround.inbox.1 hinbox, hworker,
    List.getElem?_set_self (List.getElem?_eq_some_iff.1 hs).1, hs]
  rfl

/-! ## The calls of a backend -/

theorem exists_of_map_ok {α β ε : Type} {x : Except ε α} {f : α → β} {b : β}
    (h : x.map f = .ok b) : ∃ a, x = .ok a := by
  cases x with
  | error e => cases h
  | ok a => exact ⟨a, rfl⟩

theorem install_inner {b : Backend} (hb : b.engine = .pooled p) (files : FileTree)
    (snapshot : Snapshot) :
    let done := ((b.install snapshot).run files).1
    ∃ waiting working, (∀ a ∈ waiting ++ working, Inner a) ∧
      done.2.engine = .pooled ((waiting ++ update snapshot :: working).foldl act p) ∧
      (done.1 = .ok () → ∃ ids, Installed p waiting snapshot working ids) := by
  obtain ⟨waiting, hwaiting, hsettled⟩ := turns_inner b.transformer p.work p files
  have hwait : (p.wait b.transformer).run files =
      ((if (waiting.foldl act p).closed then .error .closed else .ok (), waiting.foldl act p),
        ((p.settle b.transformer).run files).2) := by
    rw [← hsettled]
    rfl
  rw [Backend.install, hb]
  dsimp only
  rw [StateT.run_bind, hwait]
  cases hclosed : (waiting.foldl act p).closed with
  | true =>
    have hrefused := (refused_of_closed hclosed Worker.setSnapshot [snapshot.text]).2
    have hsame : (waiting ++ [update snapshot]).foldl act p = waiting.foldl act p := by
      rw [List.foldl_append, List.foldl_cons, List.foldl_nil, update, act, hrefused]
    exact ⟨waiting, [], by simpa using hwaiting, by rw [hsame]; rfl, fun h => by cases h⟩
  | false =>
    obtain ⟨working, hworking, hpool, hvalues⟩ := (waiting.foldl act p).callAll_inner b.transformer
      Worker.setSnapshot [snapshot.text] ((p.settle b.transformer).run files).2
    rw [← List.foldl_append, ← update] at hpool
    refine ⟨waiting, working, fun a ha => (List.mem_append.1 ha).elim (hwaiting a) (hworking a),
      congrArg Engine.pooled hpool, fun hok => ?_⟩
    obtain ⟨values, hok⟩ := exists_of_map_ok hok
    obtain ⟨ids, hids, hanswers⟩ := hvalues values hok
    exact ⟨ids, hids, hpool ▸ hanswers⟩

theorem Installed.of_run {start : Pool} {before after : List Action} {snapshot : Snapshot}
    (h : Installed (schedule.foldl act start) before snapshot after ids) :
    Installed start (schedule ++ before) snapshot after ids where
  accepted := by
    rw [List.foldl_append]
    exact h.accepted
  answered id hid := by
    rw [List.append_assoc, List.foldl_append]
    exact h.answered id hid

theorem compile_inner {b : Backend} (hb : b.engine = .pooled p) (files : FileTree)
    (r : CompileRequest) :
    ∃ working, (∀ a ∈ working, Inner a) ∧
      ((b.compile r).run files).1.2.engine = .pooled ((compile r :: working).foldl act p) := by
  obtain ⟨working, hworking, hpool⟩ :=
    p.call_inner b.transformer Worker.compileClass [.ofJson (Json.encode r)] files
  refine ⟨working, hworking, ?_⟩
  rw [Backend.compile, hb, compile, ← hpool]
  rfl

/-- However callers, workers and the dispatcher of a pool take turns, a snapshot reaches all workers or
none. -/
theorem broadcast_allOrNothing (size : Nat) (schedule : List Action)
    (hserving : ∀ a ∈ schedule, Serving a) :
    AllOrNothing (ofSize size) schedule (schedule.foldl act (ofSize size)) := by
  obtain ⟨ho, haccounts⟩ := accounts_run size schedule
  have hopen := (orderly_ofSize size).closed_of_not_mem rfl (not_shutdown_of_serving hserving)
  obtain ⟨_, _, _, hshared, -⟩ := (shared_ofSize size).run (orderly_ofSize size) hserving
  exact {
    same := fun hnot s hs t ht => (hshared.same hnot hs).trans (hshared.same hnot ht).symm
    quiet := fun hsize hanswered => haccounts.not_updating hsize hopen hanswered
    once := by
      rintro hsize before s after ids rfl hinstalled
      exact hinstalled.once hserving hsize
    against := by
      rintro hsize before s after ids rfl hinstalled hlast seat hseat transformer files r
      rw [Worker.call_compileClass, Worker.compile_alike (hinstalled.alike hserving hsize hlast hseat)]
    failed := ho.worker_of_failed
    install := fun hb files s => by
      obtain ⟨waiting, working, hinner, hpool, hdone⟩ := install_inner hb files s
      exact ⟨waiting, working, hinner, hpool, fun hok => (hdone hok).imp fun _ h => h.of_run⟩
    compile := fun hb => compile_inner hb }

def onePackage : Snapshot := { packages := .ofList [("demo", true)] }

def twoReady : List Action := [.announce 0, .announce 1, .deliver, .deliver]

def twoWork (r : CompileRequest) : List Action :=
  [.execute .passthrough {} 1, compile r, .execute .passthrough {} 0, .deliver, .deliver]

theorem broadcast_allOrNothing_onePackage :
    let r : CompileRequest :=
      { classname := "demo.A", sourcePath := ⟨"A.js"⟩, outputDir := ⟨"out"⟩, minify := false }
    let schedule := twoReady ++ update onePackage :: twoWork r
    let p := schedule.foldl act (ofSize 2)
    Installed (ofSize 2) twoReady onePackage (twoWork r) [1, 2] ∧
      (((ofSize 2).performed schedule).filter fun c =>
        c.2 ∈ [1, 2].map (.call Worker.setSnapshot [onePackage.text])).map (·.1) = [1, 0] ∧
      ∀ seat ∈ p.seats, ∀ transformer files r,
        (seat.worker.call transformer Worker.compileClass [.ofJson (Json.encode r)]).run files =
          let done := ({ seat.worker with snapshot := onePackage }.compile transformer r).run files
          ((done.1, seat.worker), done.2) := by
  intro r schedule p
  have hready : ∀ a ∈ twoReady, Serving a := by
    simp [twoReady, Serving.inner, Inner.announce, Inner.deliver]
  have hwork : ∀ a ∈ twoWork r, Serving a := by
    simp [twoWork, Serving.compile, Serving.inner, Inner.execute, Inner.deliver]
  have hserving : ∀ a ∈ schedule, Serving a := by
    simp only [schedule, List.forall_mem_append, List.forall_mem_cons]
    exact ⟨hready, .update onePackage, hwork⟩
  have hinstalled : Installed (ofSize 2) twoReady onePackage (twoWork r) [1, 2] := by
    refine ⟨rfl, fun id hid => ⟨.ofJson (.bool true), ?_⟩⟩
    rw [List.mem_cons, List.mem_singleton] at hid
    obtain rfl | rfl := hid <;> decide +kernel
  have hlast : ¬Happened act ((twoReady ++ [update onePackage]).foldl act (ofSize 2)) (twoWork r)
      Broadcasts := by
    rintro ⟨before, a, after, heq, s, ids, rfl, -⟩
    have hmem : update s ∈ twoWork r := heq ▸ by simp
    simp [twoWork, update, compile] at hmem
  have hsize : ((ofSize 2).accepted schedule).length ≤ UInt64.size := by decide +kernel
  exact ⟨hinstalled, by decide +kernel, (broadcast_allOrNothing 2 schedule hserving).against hsize
    twoReady onePackage (twoWork r) [1, 2] rfl hinstalled hlast⟩

end Pool

end ClassForge
