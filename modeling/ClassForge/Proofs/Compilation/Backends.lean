import ClassForge.Proofs.Compilation.Batches
import ClassForge.Proofs.Compilation.Reuse
import ClassForge.Proofs.Compilation.Snapshots
import ClassForge.Proofs.Metadata.Snapshots

/-!
# Backends that compile alike

Whether classes are compiled at once or by the workers of a pool, the same comes of it. The snapshot, the
request and the build information are read back as they were sent, and every worker holds the snapshot
that was installed last. So it does not matter which worker does a call, nor in which order the workers
and the dispatcher take turns.
-/

namespace ClassForge

/-! ## Compiles that do not crash -/

namespace Compilation

variable {transformer : Transformer} {r : CompileRequest} {resolver : Resolver} {t t' : FileTree}
  {e : CompileError}

section

variable (hcrash : ∀ source file options m, transformer.run source file options ≠ .error (.crashed m))

include hcrash

theorem plan_ne_crashed (time : UInt64) (source m : String) :
    (plan r resolver transformer time source).result ≠ .error (.crashed m) := by
  rw [plan]
  split
  · simp
  · dsimp only
    split
    · next hrun => exact absurd hrun (hcrash _ _ _ _)
    · simp
    · simp

theorem ne_crashed (h : (compile r resolver transformer).run t = (.error e, t')) (m : String) :
    e ≠ .crashed m := by
  rintro rfl
  obtain hfile | ⟨time, source, _, _, hresult, _⟩ := cases_of_run_error h
  · cases hfile
  · exact plan_ne_crashed hcrash time source m hresult

end

end Compilation

namespace Pool

variable {transformer : Transformer} {files : FileTree} {s : Snapshot}

/-! ## The batches of a backend -/

namespace Batch

def compile (transformer : Transformer) (s : Snapshot) (r : CompileRequest) (files : FileTree) :
    Batch :=
  let done := (({ id := 0, snapshot := s } : Worker).compile transformer r).run files
  { method := Worker.compileClass, args := [.ofJson (Json.encode r)], outcome := done.1
    before := (·.snapshot = s), after := (·.snapshot = s), start := files, final := done.2 }

def install (old new : Snapshot) (files : FileTree) : Batch where
  method := Worker.setSnapshot
  args := [new.text]
  outcome := .ok (.ofJson (.bool true))
  before := (·.snapshot = old)
  after := (·.snapshot = new)
  start := files
  final := files

theorem works_compile (r : CompileRequest) : (compile transformer s r files).Works transformer := by
  rintro w rfl
  exact ⟨w, rfl, Worker.call_compileClass r⟩

theorem works_install {new : Snapshot} (hread : Worker.readSnapshot new.text.json = .ok new) :
    (install s new files).Works transformer := by
  intro w _
  refine ⟨{ w with snapshot := new }, rfl, ?_⟩
  have hcall : (w.call transformer Worker.setSnapshot [new.text]).run files = _ :=
    Worker.call_setSnapshot new.text
  rw [Worker.installed, hread] at hcall
  exact hcall

/-- The build information is read back as the worker wrote it, and an error has the same wording. -/
theorem outcomeOf_answer
    (hcrash : ∀ source file options m, transformer.run source file options ≠ .error (.crashed m))
    (r : CompileRequest) (worker : Nat) :
    (Backend.outcomeOf r ((compile transformer s r files).answer worker),
      (compile transformer s r files).final) =
        (Backend.compileInline transformer s r).run files := by
  have hdone : (compile transformer s r files).final =
      ((({ id := 0, snapshot := s } : Worker).compile transformer r).run files).2 := rfl
  have hanswer : (compile transformer s r files).answer worker =
      ((({ id := 0, snapshot := s } : Worker).compile transformer r).run files).1.mapError
        (.method worker Worker.compileClass) := rfl
  rw [hdone, hanswer, Worker.compile, Backend.compileInline, StateT.run_bind, StateT.run_bind]
  cases hrun : StateT.run (Compilation.compile r s.resolver transformer).run files with
  | mk result t =>
    cases result with
    | ok info =>
      have hread : Backend.outcomeOf r (.ok (.ofJson (Json.encode info))) = .ok info := by
        rw [Backend.outcomeOf, Datum.ofJson, Json.decode_canonical]
        rfl
      exact congrArg (·, t) hread
    | error e =>
      cases e with
      | crashed m => exact absurd rfl (Compilation.ne_crashed hcrash hrun m)
      | _ => rfl

end Batch

end Pool

/-! ## Backends -/

namespace Backend

/-- What callers want of a backend. -/
inductive Call where
  | install (s : Snapshot)
  | compile (r : CompileRequest)

/-- What callers get of a backend. -/
inductive Reply where
  | installed (result : Except PoolError Unit)
  | compiled (outcome : CompileOutcome)
deriving DecidableEq

def perform (b : Backend) : Call → StateM FileTree (Reply × Backend)
  | .install s => do
    let (result, b) ← b.install s
    return (.installed result, b)
  | .compile r => do
    let (outcome, b) ← b.compile r
    return (.compiled outcome, b)

def performAll : List Call → Backend → StateM FileTree (List Reply × Backend)
  | [], b => return ([], b)
  | c :: calls, b => do
    let (reply, b) ← b.perform c
    let (replies, b) ← performAll calls b
    return (reply :: replies, b)

theorem run_performAll_cons (c : Call) (calls : List Call) (b : Backend) (files : FileTree) :
    (performAll (c :: calls) b).run files =
      let first := (b.perform c).run files
      let rest := (performAll calls first.1.2).run first.2
      ((first.1.1 :: rest.1.1, rest.1.2), rest.2) := rfl

end Backend

namespace Pool

open Backend (Call)

/-- Calls to a pool that come one after another, while the workers and the dispatcher take turns in any
order. A caller goes on when all its calls are answered. -/
inductive Served (transformer : Transformer) :
    Pool → FileTree → List Call → List Backend.Reply → Pool → FileTree → Prop
  | done {p : Pool} {files : FileTree} : Served transformer p files [] [] p files
  | work {p p₁ p' : Pool} {files files₁ files' : FileTree} {calls : List Call}
      {replies : List Backend.Reply} (order : List Step)
      (hsteps : (steps transformer order p).run files = (p₁, files₁))
      (hrest : Served transformer p₁ files₁ calls replies p' files') :
      Served transformer p files calls replies p' files'
  | install {p p₁ p₂ p' : Pool} {files files₂ files' : FileTree} {s : Snapshot} {ids : List UInt64}
      {calls : List Call} {replies : List Backend.Reply} (order : List Step)
      (hsent : p.submitAll Worker.setSnapshot [s.text] = (.ok ids, p₁))
      (hsteps : (steps transformer order p₁).run files = (p₂, files₂))
      (hanswered : ∀ id ∈ ids, id ∉ p₂.unanswered)
      (hrest : Served transformer p₂ files₂ calls replies p' files') :
      Served transformer p files (.install s :: calls)
        (.installed ((ids.mapM fun id => (p₂.answer? id).getD (.error .closed)).map fun _ => ()) ::
          replies) p' files'
  | compile {p p₁ p₂ p' : Pool} {files files₂ files' : FileTree} {r : CompileRequest} {id : UInt64}
      {calls : List Call} {replies : List Backend.Reply} (order : List Step)
      (hsent : p.submit Worker.compileClass [.ofJson (Json.encode r)] = (.ok id, p₁))
      (hsteps : (steps transformer order p₁).run files = (p₂, files₂))
      (hanswered : id ∉ p₂.unanswered)
      (hrest : Served transformer p₂ files₂ calls replies p' files') :
      Served transformer p files (.compile r :: calls)
        (.compiled (Backend.outcomeOf r ((p₂.answer? id).getD (.error .closed))) :: replies) p' files'

variable {p q p₂ p' : Pool} {transformer : Transformer} {files files₂ files' : FileTree}
  {s new : Snapshot} {b : Batch} {ids : List UInt64} {calls : List Call} {order : List Step}
  {replies : List Backend.Reply}

theorem Sent.stepped (hsent : Sent b ids p q) (h : Resting s p) (hworks : b.Works transformer)
    (hsteps : (steps transformer order q).run b.start = (p₂, files₂)) :
    Orderly p₂ ∧ p₂.closed = false ∧ Underway b ids p₂ files₂ ∧ p₂.seats ≠ [] ∧
      p₂.seats.length ≤ UInt64.size := by
  have hdone := hsent.underway.steps hsent.orderly hsent.opened hworks order
  rw [hsteps, hsent.length] at hdone
  obtain ⟨ho, hopen, hunderway, hlength⟩ := hdone
  refine ⟨ho, hopen, hunderway, ?_, hlength ▸ h.size⟩
  rw [← List.length_pos_iff, hlength]
  exact List.length_pos_iff.2 h.seats

theorem Sent.resting (hsent : Sent b ids p q) (h : Resting s p) (hworks : b.Works transformer)
    (hafter : ∀ w, b.after w → w.snapshot = new)
    (hsteps : (steps transformer order q).run b.start = (p₂, files₂))
    (hanswered : ∀ id ∈ ids, id ∉ p₂.unanswered) :
    Resting new p₂ ∧ files₂ = b.final ∧ ∀ id ∈ ids, ∃ w, p₂.answer? id = some (b.answer w) := by
  obtain ⟨ho, hopen, hunderway, hseats, hsize⟩ := hsent.stepped h hworks hsteps
  exact hunderway.resting ho hopen hseats hsize hafter hanswered

theorem Sent.answered_of_quiet (hsent : Sent b ids p q) (h : Resting s p)
    (hworks : b.Works transformer) (hsteps : (steps transformer order q).run b.start = (p₂, files₂))
    (hquiet : p₂.Quiet) : p₂.unanswered = [] := by
  obtain ⟨ho, hopen, hunderway, hseats, -⟩ := hsent.stepped h hworks hsteps
  exact hunderway.unanswered_of_quiet hquiet (hquiet.queue_eq_nil ho hopen hseats)

theorem map_mapM_ok {f : UInt64 → Except PoolError Datum} (h : ∀ id ∈ ids, ∃ value, f id = .ok value) :
    (ids.mapM f).map (fun _ => ()) = .ok () := by
  have hall : ∃ values, ids.mapM f = .ok values := by
    induction ids with
    | nil => exact ⟨[], rfl⟩
    | cons id ids ih =>
      obtain ⟨⟨value, hfirst⟩, hrest⟩ := List.forall_mem_cons.1 h
      obtain ⟨values, hvalues⟩ := ih hrest
      rw [List.mapM_cons, hfirst, hvalues]
      exact ⟨value :: values, rfl⟩
  obtain ⟨values, hvalues⟩ := hall
  rw [hvalues]
  rfl

theorem Resting.install (h : Resting s p) (hread : Worker.readSnapshot new.text.json = .ok new)
    (hsent : p.submitAll Worker.setSnapshot [new.text] = (.ok ids, q))
    (hsteps : (Pool.steps transformer order q).run files = (p₂, files₂))
    (hanswered : ∀ id ∈ ids, id ∉ p₂.unanswered) :
    Resting new p₂ ∧ files₂ = files ∧
      (ids.mapM fun id => (p₂.answer? id).getD (.error .closed)).map (fun _ => ()) = .ok () := by
  have hbatch : Sent (.install s new files) ids p q := h.submitAll (fun _ hw => hw) rfl hsent
  obtain ⟨hrest, hfiles, hall⟩ :=
    hbatch.resting h (Batch.works_install hread) (fun _ hw => hw) hsteps hanswered
  refine ⟨hrest, hfiles, map_mapM_ok fun id hid => ?_⟩
  obtain ⟨w, hw⟩ := hall id hid
  rw [hw]
  exact ⟨_, rfl⟩

theorem Resting.compile (h : Resting s p)
    (hcrash : ∀ source file options m, transformer.run source file options ≠ .error (.crashed m))
    {r : CompileRequest} {id : UInt64}
    (hsent : p.submit Worker.compileClass [.ofJson (Json.encode r)] = (.ok id, q))
    (hsteps : (Pool.steps transformer order q).run files = (p₂, files₂))
    (hanswered : id ∉ p₂.unanswered) :
    Resting s p₂ ∧ (Backend.compileInline transformer s r).run files =
      (Backend.outcomeOf r ((p₂.answer? id).getD (.error .closed)), files₂) := by
  obtain ⟨id', q', hsent', hbatch⟩ :=
    h.submit (b := .compile transformer s r files) (fun _ hw => hw) fun _ hw => hw
  cases hsent.symm.trans hsent'
  obtain ⟨hrest, hfiles, hall⟩ := hbatch.resting h (Batch.works_compile r) (fun _ hw => hw) hsteps
    (by simpa using hanswered)
  obtain ⟨w, hw⟩ := hall id List.mem_cons_self
  rw [hw, ← Batch.outcomeOf_answer hcrash r w, hfiles]
  exact ⟨hrest, rfl⟩

/-- In whatever order turns are taken, callers get what they get of classes that are compiled at once. -/
theorem Served.performAll (h : Served transformer p files calls replies p' files')
    (hcrash : ∀ source file options m, transformer.run source file options ≠ .error (.crashed m))
    (hread : ∀ s, .install s ∈ calls → Worker.readSnapshot s.text.json = .ok s) (hrest : Resting s p)
    (pauses : Bool) :
    let inline := (Backend.performAll calls { transformer, engine := .inline s, pauses }).run files
    replies = inline.1.1 ∧ files' = inline.2 := by
  induction h generalizing s with
  | done => exact ⟨rfl, rfl⟩
  | work order hsteps _ ih =>
    obtain ⟨hrest₁, hfiles⟩ := hrest.steps transformer order _
    rw [hsteps] at hrest₁ hfiles
    dsimp only at hfiles
    exact hfiles ▸ ih hread hrest₁
  | @install p p₁ p₂ p' files files₂ files' new ids calls replies order hsent hsteps hanswered _ ih =>
    obtain ⟨hrest₂, rfl, hinstalled⟩ :=
      hrest.install (hread new List.mem_cons_self) hsent hsteps hanswered
    obtain ⟨hreplies, hfiles⟩ := ih (fun t ht => hread t (List.mem_cons_of_mem _ ht)) hrest₂
    rw [hinstalled, hreplies, hfiles]
    exact ⟨rfl, rfl⟩
  | @compile p p₁ p₂ p' files files₂ files' r id calls replies order hsent hsteps hanswered _ ih =>
    obtain ⟨hrest₂, hcompiled⟩ := hrest.compile hcrash hsent hsteps hanswered
    obtain ⟨hreplies, hfiles⟩ := ih (fun t ht => hread t (List.mem_cons_of_mem _ ht)) hrest₂
    have hinline : (Backend.perform { transformer, engine := .inline s, pauses } (.compile r)).run
        files = let done := (Backend.compileInline transformer s r).run files
          ((.compiled done.1, { transformer, engine := .inline s, pauses }), done.2) := rfl
    rw [Backend.run_performAll_cons, hinline, hcompiled, hreplies, hfiles]
    exact ⟨rfl, rfl⟩

/-! ## Pools that take turns in their own order -/

theorem run_install {b : Backend} {p₁ : Pool} {files₁ : FileTree} (hb : b.engine = .pooled p)
    (hwait : (p.settle b.transformer).run files = (p₁, files₁)) (hopen : p₁.closed = false)
    (hsent : p₁.submitAll Worker.setSnapshot [new.text] = (.ok ids, q))
    (hsettle : (q.settle b.transformer).run files₁ = (p₂, files₂)) :
    (b.install new).run files =
      (((ids.mapM fun id => (p₂.answer? id).getD (.error .closed)).map (fun _ => ()),
        { b with engine := .pooled p₂ }), files₂) := by
  have hready : (p.wait b.transformer).run files = ((.ok (), p₁), files₁) := by
    have heq : (p.wait b.transformer).run files =
        let settled := (p.settle b.transformer).run files
        ((if settled.1.closed then .error .closed else .ok (), settled.1), settled.2) := rfl
    rw [heq, hwait]
    simp only [hopen, Bool.false_eq_true, ↓reduceIte]
  have hall : (p₁.callAll b.transformer Worker.setSnapshot [new.text]).run files₁ =
      ((ids.mapM fun id => (p₂.answer? id).getD (.error .closed), p₂), files₂) := by
    rw [callAll, hsent]
    dsimp only
    rw [StateT.run_bind, hsettle]
    rfl
  rw [Backend.install, hb]
  dsimp only
  rw [StateT.run_bind, hready]
  change StateT.run (p₁.callAll b.transformer Worker.setSnapshot [new.text] >>= _) files₁ = _
  rw [StateT.run_bind, hall]
  rfl

theorem run_compile {b : Backend} {r : CompileRequest} {id : UInt64} (hb : b.engine = .pooled p)
    (hsent : p.submit Worker.compileClass [.ofJson (Json.encode r)] = (.ok id, q))
    (hsettle : (q.settle b.transformer).run files = (p₂, files₂)) :
    (b.compile r).run files =
      ((Backend.outcomeOf r ((p₂.answer? id).getD (.error .closed)), { b with engine := .pooled p₂ }),
        files₂) := by
  have hcall : (p.call b.transformer Worker.compileClass [.ofJson (Json.encode r)]).run files =
      (((p₂.answer? id).getD (.error .closed), p₂), files₂) := by
    rw [call, hsent]
    dsimp only
    rw [StateT.run_bind, hsettle]
    rfl
  rw [Backend.compile, hb]
  dsimp only
  rw [StateT.run_bind, hcall]
  rfl

theorem Resting.exists_install (h : Resting s p) {b : Backend} (hb : b.engine = .pooled p)
    (hread : Worker.readSnapshot new.text.json = .ok new) (files : FileTree) :
    ∃ result p₂ files₂,
      (b.install new).run files = ((result, { b with engine := .pooled p₂ }), files₂) ∧
      Resting new p₂ ∧ ∀ {calls replies p' files'},
        Served b.transformer p₂ files₂ calls replies p' files' →
          Served b.transformer p files (.install new :: calls) (.installed result :: replies) p'
            files' := by
  obtain ⟨order₁, hwait, hquiet₁⟩ := h.orderly.settle_quiet h.opened b.transformer files
  obtain ⟨hrest₁, -⟩ := h.steps b.transformer order₁ files
  cases hsteps₁ : (Pool.steps b.transformer order₁ p).run files with
  | mk p₁ files₁ =>
    rw [hsteps₁] at hwait hquiet₁ hrest₁
    obtain ⟨ids, q, hsent⟩ :=
      hquiet₁.exists_submitAll hrest₁.orderly hrest₁.opened Worker.setSnapshot [new.text]
    have hbatch : Sent (.install s new files₁) ids p₁ q :=
      hrest₁.submitAll (fun _ hw => hw) rfl hsent
    obtain ⟨order₂, hsettle, hquiet₂⟩ :=
      hbatch.orderly.settle_quiet hbatch.opened b.transformer files₁
    cases hsteps₂ : (Pool.steps b.transformer order₂ q).run files₁ with
    | mk p₂ files₂ =>
      rw [hsteps₂] at hsettle hquiet₂
      have hnone := hbatch.answered_of_quiet hrest₁ (Batch.works_install hread) hsteps₂ hquiet₂
      have hanswered : ∀ id ∈ ids, id ∉ p₂.unanswered := by simp [hnone]
      obtain ⟨hrest₂, -, -⟩ := hrest₁.install hread hsent hsteps₂ hanswered
      exact ⟨_, p₂, files₂, run_install hb hwait hrest₁.opened hsent hsettle, hrest₂,
        fun hserved => .work order₁ hsteps₁ (.install order₂ hsent hsteps₂ hanswered hserved)⟩

/-- A pool that takes turns in its own order compiles a class. -/
theorem Resting.exists_compile (h : Resting s p) {b : Backend} (hb : b.engine = .pooled p)
    (hcrash : ∀ source file options m, b.transformer.run source file options ≠ .error (.crashed m))
    (r : CompileRequest) (files : FileTree) :
    ∃ outcome p₂ files₂,
      (b.compile r).run files = ((outcome, { b with engine := .pooled p₂ }), files₂) ∧
      Resting s p₂ ∧ ∀ {calls replies p' files'},
        Served b.transformer p₂ files₂ calls replies p' files' →
          Served b.transformer p files (.compile r :: calls) (.compiled outcome :: replies) p'
            files' := by
  obtain ⟨id, q, hsent, hbatch⟩ :=
    h.submit (b := .compile b.transformer s r files) (fun _ hw => hw) fun _ hw => hw
  obtain ⟨order, hsettle, hquiet⟩ := hbatch.orderly.settle_quiet hbatch.opened b.transformer files
  cases hsteps : (Pool.steps b.transformer order q).run files with
  | mk p₂ files₂ =>
    rw [hsteps] at hsettle hquiet
    have hnone := hbatch.answered_of_quiet h (Batch.works_compile r) hsteps hquiet
    have hanswered : id ∉ p₂.unanswered := by simp [hnone]
    obtain ⟨hrest, -⟩ := h.compile hcrash hsent hsteps hanswered
    exact ⟨_, p₂, files₂, run_compile hb hsent hsettle, hrest,
      fun hserved => .compile order hsent hsteps hanswered hserved⟩

theorem Resting.exists_served (h : Resting s p)
    (hcrash : ∀ source file options m, transformer.run source file options ≠ .error (.crashed m))
    (hread : ∀ s, .install s ∈ calls → Worker.readSnapshot s.text.json = .ok s) (pauses : Bool)
    (files : FileTree) :
    let pooled := (Backend.performAll calls { transformer, engine := .pooled p, pauses }).run files
    ∃ p', Served transformer p files calls pooled.1.1 p' pooled.2 := by
  induction calls generalizing s p files with
  | nil => exact ⟨p, .done⟩
  | cons c calls ih =>
    have hlater : ∀ s, .install s ∈ calls → Worker.readSnapshot s.text.json = .ok s :=
      fun t ht => hread t (List.mem_cons_of_mem c ht)
    let b : Backend := { transformer, engine := .pooled p, pauses }
    cases c with
    | install new =>
      obtain ⟨result, p₂, files₂, hrun, hrest, hserved⟩ :=
        h.exists_install (b := b) rfl (hread new List.mem_cons_self) files
      have hperform : (b.perform (.install new)).run files =
          let done := (b.install new).run files
          ((.installed done.1.1, done.1.2), done.2) := rfl
      obtain ⟨p', hlast⟩ := ih hrest hlater files₂
      rw [Backend.run_performAll_cons, hperform, hrun]
      exact ⟨p', hserved hlast⟩
    | compile r =>
      obtain ⟨outcome, p₂, files₂, hrun, hrest, hserved⟩ := h.exists_compile (b := b) rfl hcrash r files
      have hperform : (b.perform (.compile r)).run files =
          let done := (b.compile r).run files
          ((.compiled done.1.1, done.1.2), done.2) := rfl
      obtain ⟨p', hlast⟩ := ih hrest hlater files₂
      rw [Backend.run_performAll_cons, hperform, hrun]
      exact ⟨p', hserved hlast⟩

end Pool

/-! ## Interchangeable backends -/

def Snapshot.Versioned (s : Snapshot) : Prop :=
  ∀ c r, s.classes.get? c = some r → r.version = ClassRecord.formVersion

theorem Metadata.versioned_snapshot (root : Path) (operations : List Operation) :
    (operated root operations).snapshot.Versioned := versioned_operated root operations

theorem Snapshot.Versioned.readSnapshot {s : Snapshot} (h : s.Versioned) :
    Worker.readSnapshot s.text.json = .ok s := by
  let m : Metadata :=
    { rootDir := ⟨""⟩, records := s.classes, packages := s.packages
      environmentChecks := s.environmentChecks }
  have hread := Metadata.readSnapshot_of_versioned (m := m) h
  have hsnapshot : m.snapshot = s := rfl
  rw [hsnapshot] at hread
  exact hread

namespace Backend

/-- Callers cannot tell a pool from a backend that compiles at once, as long as the transformer does not
crash: they get the same replies, and find the same files. This is so for a pool that takes turns in its
own order, and for every order in which it could: whichever worker does a call, and whatever the workers
have done in between. -/
theorem performAll_pooled {transformer : Transformer}
    (hcrash : ∀ source file options m, transformer.run source file options ≠ .error (.crashed m))
    {calls : List Call} (hcalls : ∀ s, .install s ∈ calls → s.Versioned) (workers : UInt64)
    (pauses : Bool) (files : FileTree) :
    let inline := (performAll calls { transformer, engine := .inline {}, pauses }).run files
    let pooled := (performAll calls
      { transformer, engine := .pooled (.ofSize workers.toNat), pauses }).run files
    pooled.1.1 = inline.1.1 ∧ pooled.2 = inline.2 ∧
      ∀ replies p files',
        Pool.Served transformer (.ofSize workers.toNat) files calls replies p files' →
          replies = inline.1.1 ∧ files' = inline.2 := by
  have hread : ∀ s, .install s ∈ calls → Worker.readSnapshot s.text.json = .ok s :=
    fun s hs => (hcalls s hs).readSnapshot
  have hrest := Pool.resting_ofSize workers
  have hevery : ∀ replies p files',
      Pool.Served transformer (.ofSize workers.toNat) files calls replies p files' → _ ∧ _ :=
    fun replies p files' hserved => hserved.performAll hcrash hread hrest pauses
  obtain ⟨p, hserved⟩ := hrest.exists_served hcrash hread pauses files
  obtain ⟨hreplies, hfiles⟩ := hevery _ p _ hserved
  exact ⟨hreplies, hfiles, hevery⟩

def twoCalls : List Call :=
  [.install (Metadata.operated ⟨"/meta"⟩ [.addChecks (.ofList [("a.*", "a.A")])]).snapshot,
    .compile Compilation.referring]

def Reply.succeeds : Reply → Bool
  | installed result => result.toOption.isSome
  | compiled outcome => outcome.toOption.isSome

theorem performAll_pooled_twoCalls :
    let files := Compilation.referringFiles
    let inline := (performAll twoCalls { transformer := .passthrough, engine := .inline {} }).run files
    let pooled := (performAll twoCalls
      { transformer := .passthrough, engine := .pooled (.ofSize (2 : UInt64).toNat) }).run files
    (∀ s, .install s ∈ twoCalls → s.Versioned) ∧ inline.1.1.map Reply.succeeds = [true, true] ∧
      pooled.1.1 = inline.1.1 ∧ pooled.2 = inline.2 ∧
      ∀ replies p files',
        Pool.Served .passthrough (.ofSize (2 : UInt64).toNat) files twoCalls replies p files' →
          replies = inline.1.1 ∧ files' = inline.2 := by
  have hcalls : ∀ s, .install s ∈ twoCalls → s.Versioned := by
    intro s hs
    simp only [twoCalls, List.mem_cons, Call.install.injEq, List.not_mem_nil, reduceCtorEq,
      or_false] at hs
    exact hs ▸ Metadata.versioned_snapshot _ _
  have hcrash : ∀ source file options m,
      Transformer.passthrough.run source file options ≠ .error (.crashed m) := by
    rintro _ _ _ _ ⟨⟩
  exact ⟨hcalls, by decide +kernel,
    performAll_pooled hcrash hcalls 2 false Compilation.referringFiles⟩

end Backend

end ClassForge
