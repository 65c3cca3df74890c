import ClassForge.Proofs.Files.Steps
import ClassForge.Proofs.Metadata.Operations

/-!
# Calls that fail

Adding a file, removing one and loading what is stored may fail. Taken apart into steps, a call leaves
behind what its steps have done before the one that fails. Adding and loading do all that can fail
before they change anything, so they fail without a trace. Removing a file unregisters it first, and
the same call has nothing left to remove afterwards.
-/

namespace ClassForge

/-! ## Steps that leave no trace -/

section

variable {σ ε α β : Type} {x : ExceptT ε (StateM σ) α} {f : α → ExceptT ε (StateM σ) β}

def ReadOnly (x : ExceptT ε (StateM σ) α) : Prop := ∀ s, (x.run s).2 = s

def Unfailing (x : ExceptT ε (StateM σ) α) : Prop := ∀ s e s', x.run s ≠ (.error e, s')

def Traceless (x : ExceptT ε (StateM σ) α) : Prop := ∀ s e s', x.run s = (.error e, s') → s' = s

theorem Unfailing.traceless (h : Unfailing x) : Traceless x :=
  fun s e s' hfail => absurd hfail (h s e s')

theorem unfailing_pure (a : α) : Unfailing (pure a : ExceptT ε (StateM σ) α) := by
  intro s e s' hfail
  cases hfail

theorem Unfailing.bind (h : Unfailing x) (hf : ∀ a, Unfailing (f a)) : Unfailing (x >>= f) := by
  intro s e s' hfail
  obtain hx | ⟨a, s₁, -, hrest⟩ := cases_of_run_bind_error hfail
  · exact h s e s' hx
  · exact hf a s₁ e s' hrest

theorem unfailing_forM {g : α → ExceptT ε (StateM σ) PUnit} (hg : ∀ a, Unfailing (g a))
    (l : List α) : Unfailing (l.forM g) := by
  induction l with
  | nil => exact unfailing_pure _
  | cons a l ih => exact (hg a).bind fun _ => ih

theorem ReadOnly.bind (h : ReadOnly x) (hf : ∀ a, Traceless (f a)) : Traceless (x >>= f) := by
  intro s e s' hfail
  have hsame := h s
  obtain hx | ⟨a, s₁, hx, hrest⟩ := cases_of_run_bind_error hfail
  · rw [hx] at hsame
    exact hsame
  · rw [hx] at hsame
    obtain rfl : s₁ = s := hsame
    exact hf a s₁ e s' hrest

theorem run_map (g : α → β) (x : ExceptT ε (StateM σ) α) (s : σ) :
    (g <$> x).run s = ((x.run s).1.map g, (x.run s).2) := by
  rw [map_eq_pure_bind]
  rcases hx : x.run s with ⟨e | a, s'⟩
  · exact run_bind_of_error hx
  · exact run_bind_of_ok hx

theorem Traceless.map (h : Traceless x) (g : α → β) : Traceless (g <$> x) := by
  intro s e s' hfail
  rw [run_map] at hfail
  rcases hx : x.run s with ⟨e' | a, s₁⟩
  · rw [hx] at hfail
    cases hfail
    exact h s _ _ hx
  · rw [hx] at hfail
    cases hfail

end

theorem ClassRecord.traceless_remove (file : Path) : Traceless (ClassRecord.remove file) := by
  intro t e t' hfail
  have hget : (get : FileM StoreError FileTree).run t = (.ok t, t) := rfl
  rw [remove, run_bind_of_ok hget] at hfail
  split at hfail <;> cases hfail
  rfl

namespace Metadata

variable {m m' : Metadata} {t t' : FileTree}

/-! ## Calls in steps -/

abbrev CallM := ExceptT StoreError (StateM (Metadata × FileTree))

namespace CallM

variable {α : Type}

def ask (f : Metadata → FileTree → Except StoreError α) : CallM α := do
  let s ← get
  match f s.1 s.2 with
  | .ok a => return a
  | .error e => throw e

def update (f : Metadata → FileTree → Metadata) : CallM Unit :=
  modify fun s => (f s.1 s.2, s.2)

def onFiles (x : FileM StoreError α) : CallM α := do
  let s ← get
  set (s.1, (x.run s.2).2)
  match (x.run s.2).1 with
  | .ok a => return a
  | .error e => throw e

theorem run_ask (f : Metadata → FileTree → Except StoreError α) (s : Metadata × FileTree) :
    (ask f).run s = (f s.1 s.2, s) := by
  have hget : (get : CallM (Metadata × FileTree)).run s = (.ok s, s) := rfl
  rw [ask, run_bind_of_ok hget]
  cases f s.1 s.2 <;> rfl

theorem run_update (f : Metadata → FileTree → Metadata) (s : Metadata × FileTree) :
    (update f).run s = (.ok (), (f s.1 s.2, s.2)) := rfl

theorem run_onFiles (x : FileM StoreError α) (s : Metadata × FileTree) :
    (onFiles x).run s = ((x.run s.2).1, (s.1, (x.run s.2).2)) := by
  have hget : (get : CallM (Metadata × FileTree)).run s = (.ok s, s) := rfl
  have hset : (set (s.1, (x.run s.2).2) : CallM PUnit).run s = (.ok ⟨⟩, (s.1, (x.run s.2).2)) := rfl
  rw [onFiles, run_bind_of_ok hget, run_bind_of_ok hset]
  cases (x.run s.2).1 <;> rfl

theorem readOnly_ask (f : Metadata → FileTree → Except StoreError α) : ReadOnly (ask f) := by
  intro s
  rw [run_ask]

theorem unfailing_update (f : Metadata → FileTree → Metadata) : Unfailing (update f) := by
  intro s e s' hfail
  rw [run_update] at hfail
  cases hfail

/-- Reads a file that should define a certain class, if it has to be read, and puts it in place. -/
def addClassFile (classname : Option String) (file : Path) (force : Bool) : CallM Bool := do
  let time ← ask fun _ t => (t.modified file).mapError (.io file)
  let stale ← ask fun m _ => .ok (m.isStale classname file time)
  if force || stale then
    let x ← ask fun _ t => (ClassRecord.ofFile t file classname).mapError .source
    update fun m _ => m.stage file time x
    return true
  else return false

/-- Reads a file that should define the class it defined before. -/
def addFile (file : Path) (force : Bool) : CallM Bool := do
  let classname ← ask fun m _ => .ok (m.classOf? file)
  addClassFile classname file force

/-- Unregisters a file, removes the stored record of its class, and drops the class. -/
def removeFile (file : Path) : CallM (Option String) := do
  match ← ask fun m _ => .ok (m.classOf? file) with
  | none => return none
  | some classname =>
    update fun m _ => { m with files := m.files.erase file.plain }
    let derived ← ask fun m _ => .ok (m.hierarchy.directDerived classname)
    let stored ← ask fun m _ => .ok (m.records.contains classname)
    let root ← ask fun m _ => .ok m.rootDir
    if stored then onFiles (ClassRecord.remove (ClassRecord.storePath root classname))
    update fun m _ => m.forget classname
    update fun m _ => { m with dirty := derived.foldl NameSet.add m.dirty }
    return some classname

def storedIndex (m : Metadata) (t : FileTree) : Except StoreError (Option Index) :=
  match t.read m.indexPath with
  | .error .notFound => .ok none
  | .error cause => .error (.io m.indexPath cause)
  | .ok text =>
    match (Json.parse? text).bind fun j =>
      (Json.decode j : Except Json.DecodeError Index).toOption with
    | none => .error (.malformed m.indexPath)
    | some index => .ok (some index)

/-- Reads the index, and takes over the checks and the classes one by one. -/
def load : CallM Unit := do
  match ← ask storedIndex with
  | none => return ()
  | some index =>
    update fun m _ => m.addEnvironmentChecks index.environmentChecks
    index.classnames.forM fun classname => update fun m t => restore t m classname

/-! ### What the steps come to -/

theorem run_ask_bind {β : Type} (f : Metadata → FileTree → Except StoreError α) (g : α → CallM β)
    (s : Metadata × FileTree) : (ask f >>= g).run s =
      match f s.1 s.2 with
      | .ok a => (g a).run s
      | .error e => (.error e, s) := by
  cases hask : f s.1 s.2 with
  | ok a => exact run_bind_of_ok (by rw [run_ask, hask])
  | error e => exact run_bind_of_error (by rw [run_ask, hask])

theorem run_update_bind {β : Type} (f : Metadata → FileTree → Metadata) (g : Unit → CallM β)
    (s : Metadata × FileTree) : (update f >>= g).run s = (g ()).run (f s.1 s.2, s.2) :=
  run_bind_of_ok (run_update f s)

def settled (m : Metadata) (t : FileTree) :
    Except StoreError (α × Metadata) → Except StoreError α × Metadata × FileTree
  | .ok (a, m') => (.ok a, m', t)
  | .error e => (.error e, m, t)

theorem run_addClassFile (m : Metadata) (t : FileTree) (classname : Option String) (file : Path)
    (force : Bool) : (addClassFile classname file force).run (m, t) =
      settled m t (m.addClassFile t classname file force) := by
  rw [addClassFile, run_ask_bind, Metadata.addClassFile]
  cases (t.modified file).mapError (StoreError.io file) with
  | error e => rfl
  | ok time =>
    dsimp only
    rw [run_ask_bind]
    simp only [bind, Except.bind]
    cases hread : force || m.isStale classname file time with
    | false =>
      rw [Bool.or_eq_false_iff] at hread
      simp only [hread]
      rfl
    | true =>
      have hunread : (!force && !m.isStale classname file time) = false := by
        rw [← Bool.not_or, hread]
        rfl
      simp only [hunread]
      change (ask _ >>= _).run (m, t) = _
      rw [run_ask_bind]
      cases (ClassRecord.ofFile t file classname).mapError StoreError.source <;> rfl

theorem run_addFile (m : Metadata) (t : FileTree) (file : Path) (force : Bool) :
    (addFile file force).run (m, t) = settled m t (m.addFile t file force) := by
  rw [addFile, run_ask_bind]
  exact run_addClassFile m t (m.classOf? file) file force

theorem run_removeFile (m : Metadata) (t : FileTree) (file : Path) :
    (removeFile file).run (m, t) = m.removeFile file t := by
  rw [removeFile, run_ask_bind, Metadata.removeFile]
  dsimp only
  cases m.classOf? file with
  | none => rfl
  | some classname =>
    dsimp only
    rw [run_update_bind, run_ask_bind]
    dsimp only
    rw [run_ask_bind]
    dsimp only
    rw [run_ask_bind]
    dsimp only
    cases hstored : m.records.contains classname with
    | false => rfl
    | true =>
      simp only [if_true]
      rcases hremoval : (ClassRecord.remove (ClassRecord.storePath m.rootDir classname)).run t with
        ⟨outcome, t'⟩
      have hfiles (m' : Metadata) :
          (onFiles (ClassRecord.remove (ClassRecord.storePath m.rootDir classname))).run (m', t) =
            (outcome, (m', t')) := by rw [run_onFiles, hremoval]
      cases outcome with
      | error e => rw [run_bind_of_error (hfiles _)]
      | ok u =>
        rw [run_bind_of_ok (hfiles _)]
        rfl

theorem run_forM_restore (m : Metadata) (t : FileTree) (classnames : List String) :
    (classnames.forM fun classname => update fun m t => restore t m classname).run (m, t) =
      (.ok (), (classnames.foldl (restore t) m, t)) := by
  induction classnames generalizing m with
  | nil => rfl
  | cons classname rest ih =>
    rw [List.forM_eq_forM, List.forM_cons, run_update_bind, List.foldl_cons]
    exact ih _

theorem run_load (m : Metadata) (t : FileTree) :
    load.run (m, t) = settled m t ((m.load t).map fun m' => ((), m')) := by
  have hload : m.load t = (storedIndex m t).map fun index? =>
      match index? with
      | none => m
      | some index =>
        index.classnames.foldl (restore t) (m.addEnvironmentChecks index.environmentChecks) := by
    rw [Metadata.load, storedIndex]
    rcases t.read m.indexPath with (_ | _ | _ | _ | _) | text
    case ok =>
      dsimp only
      cases (Json.parse? text).bind fun j =>
        (Json.decode j : Except Json.DecodeError Index).toOption <;> rfl
    all_goals rfl
  rw [load, run_ask_bind, hload]
  cases storedIndex m t with
  | error e => rfl
  | ok index? =>
    cases index? with
    | none => rfl
    | some index =>
      dsimp only
      rw [run_update_bind, run_forM_restore]
      rfl

theorem traceless_addClassFile (classname : Option String) (file : Path) (force : Bool) :
    Traceless (addClassFile classname file force) := by
  refine (readOnly_ask _).bind fun time => (readOnly_ask _).bind fun stale => ?_
  split
  · -- the source has been read before the one change is made
    refine (readOnly_ask _).bind fun x => Unfailing.traceless ?_
    exact (unfailing_update _).bind fun _ => unfailing_pure true
  · exact (unfailing_pure false).traceless

theorem traceless_addFile (file : Path) (force : Bool) : Traceless (addFile file force) :=
  (readOnly_ask _).bind fun classname => traceless_addClassFile classname file force

theorem traceless_load : Traceless load := by
  refine (readOnly_ask _).bind fun index? => ?_
  cases index? with
  | none => exact (unfailing_pure ()).traceless
  | some index =>
    refine Unfailing.traceless ((unfailing_update _).bind fun _ => ?_)
    exact unfailing_forM (fun _ => unfailing_update _) index.classnames

end CallM

/-! ## Failures -/

/-- A call that may fail. -/
inductive Call where
  | addFile (file : Path) (force : Bool)
  | addClassFile (classname : Option String) (file : Path) (force : Bool)
  | removeFile (file : Path)
  | load

/-- What a call gives if it succeeds. -/
inductive Answer where
  | added (changed : Bool)
  | removed (classname : Option String)
  | loaded
deriving DecidableEq

namespace Call

def steps : Call → CallM Answer
  | addFile file force => .added <$> CallM.addFile file force
  | addClassFile classname file force => .added <$> CallM.addClassFile classname file force
  | removeFile file => .removed <$> CallM.removeFile file
  | load => (fun _ => .loaded) <$> CallM.load

/-- What comes of a call: what it gives, the metadata and the files. -/
def run (m : Metadata) (t : FileTree) : Call → Except StoreError Answer × Metadata × FileTree
  | addFile file force => (CallM.settled m t (m.addFile t file force)).map (Except.map .added) id
  | addClassFile classname file force =>
    (CallM.settled m t (m.addClassFile t classname file force)).map (Except.map .added) id
  | removeFile file => (m.removeFile file t).map (Except.map .removed) id
  | load => CallM.settled m t ((m.load t).map fun m' => (.loaded, m'))

theorem run_steps (call : Call) (m : Metadata) (t : FileTree) :
    call.steps.run (m, t) = call.run m t := by
  cases call with
  | addFile file force =>
    rw [steps, run_map, CallM.run_addFile]
    rfl
  | addClassFile classname file force =>
    rw [steps, run_map, CallM.run_addClassFile]
    rfl
  | removeFile file =>
    rw [steps, run_map, CallM.run_removeFile]
    rfl
  | load =>
    rw [steps, run_map, CallM.run_load, run]
    cases m.load t <;> rfl

theorem traceless_steps {call : Call} (h : ∀ file, call ≠ removeFile file) :
    Traceless call.steps := by
  cases call with
  | addFile file force => exact (CallM.traceless_addFile file force).map _
  | addClassFile classname file force =>
    exact (CallM.traceless_addClassFile classname file force).map _
  | removeFile file => exact absurd rfl (h file)
  | load => exact CallM.traceless_load.map _

end Call

theorem removeFile_error {file : Path} {e : StoreError}
    (h : m.removeFile file t = (.error e, m', t')) :
    (∃ c, m.classOf? file = some c) ∧ m' = { m with files := m.files.erase file.plain } ∧
      t' = t := by
  rw [removeFile] at h
  cases hc : m.classOf? file with
  | none =>
    rw [hc] at h
    cases h
  | some c =>
    rw [hc] at h
    dsimp only at h
    have htraceless : Traceless (if m.records.contains c then
        ClassRecord.remove (ClassRecord.storePath m.rootDir c) else pure ()) := by
      split
      · exact ClassRecord.traceless_remove _
      · exact (unfailing_pure ()).traceless
    split at h
    · next e' t₁ hremoval =>
      cases h
      exact ⟨⟨c, rfl⟩, rfl, htraceless t e t' hremoval⟩
    · cases h

theorem removeFile_of_run {file : Path} {e : StoreError}
    (h : (Call.removeFile file).run m t = (.error e, m', t')) :
    m.removeFile file t = (.error e, m', t') := by
  rw [Call.run] at h
  rcases hremoval : m.removeFile file t with ⟨e' | c, m₁, t₁⟩
  · rw [hremoval] at h
    cases h
    rfl
  · rw [hremoval] at h
    cases h

theorem classOf?_unregistered (m : Metadata) (file : Path) :
    ({ m with files := m.files.erase file.plain } : Metadata).classOf? file = none := by
  rw [classOf?, Table.get?_erase, if_pos rfl]

theorem Call.run_removeFile_of_unregistered {file : Path} (h : m.classOf? file = none)
    (t : FileTree) : (Call.removeFile file).run m t = (.ok (.removed none), m, t) := by
  rw [Call.run, Metadata.removeFile, h]
  rfl

/-- A call that fails leaves all files as they were, and the metadata as well unless it removes a file.
That one is unregistered then, and the same call will find nothing to remove, whatever has become of
the files. -/
theorem failed_call_iff (call : Call) {e : StoreError}
    (h : call.steps.run (m, t) = (.error e, (m', t'))) :
    call.run m t = (.error e, m', t') ∧ t' = t ∧
      (m' = m ↔ ∀ file, call ≠ .removeFile file) ∧
      ∀ file, call = .removeFile file →
        m' = { m with files := m.files.erase file.plain } ∧
        ∀ t₁, call.run m' t₁ = (.ok (.removed none), m', t₁) := by
  have hrun := (call.run_steps m t).symm.trans h
  refine ⟨hrun, ?_⟩
  by_cases hremoves : ∃ file, call = .removeFile file
  · obtain ⟨file, rfl⟩ := hremoves
    obtain ⟨⟨c, hc⟩, hm', ht'⟩ := removeFile_error (removeFile_of_run hrun)
    have hgone : m'.classOf? file = none := hm' ▸ classOf?_unregistered m file
    refine ⟨ht', iff_of_false ?_ fun hother => hother file rfl, ?_⟩
    · rintro rfl
      cases hc.symm.trans hgone
    · rintro _ ⟨⟩
      exact ⟨hm', Call.run_removeFile_of_unregistered hgone⟩
  · have hother : ∀ file, call ≠ .removeFile file := fun file heq => hremoves ⟨file, heq⟩
    obtain ⟨hm', ht'⟩ := Prod.mk.inj (Call.traceless_steps hother (m, t) e (m', t') h)
    exact ⟨ht', iff_of_true hm' hother, fun file heq => absurd heq (hother file)⟩

/-- A file is registered under its class. -/
def oneFile : Metadata :=
  { rootDir := ⟨"/m"⟩, records := .ofList [("a.A", default)], files := .ofList [("/A.js", "a.A")] }

/-- There is a directory where the record of the class should be stored. -/
def blockedFiles : FileTree :=
  { nodes := .ofList [("/m", .directory), ("/m/a", .directory), ("/m/a/A.json", .directory)] }

theorem removeFile_blocked : ∃ e m' t',
    (Call.removeFile ⟨"/A.js"⟩).run oneFile blockedFiles = (.error e, m', t') := by
  have hfails : ((Call.removeFile ⟨"/A.js"⟩).run oneFile blockedFiles).1.isOk = false := by
    decide +kernel
  rcases hrun : (Call.removeFile ⟨"/A.js"⟩).run oneFile blockedFiles with ⟨e | a, m', t'⟩
  · exact ⟨e, m', t', rfl⟩
  · rw [hrun] at hfails
    cases hfails

theorem failed_call_iff_blocked : ∃ e m' t',
    (Call.removeFile ⟨"/A.js"⟩).steps.run (oneFile, blockedFiles) = (.error e, (m', t')) ∧
      t' = blockedFiles ∧ m' = { oneFile with files := oneFile.files.erase "/A.js" } ∧
      m' ≠ oneFile := by
  obtain ⟨e, m', t', hrun⟩ := removeFile_blocked
  have hsteps := ((Call.removeFile ⟨"/A.js"⟩).run_steps oneFile blockedFiles).trans hrun
  obtain ⟨-, ht', hkept, hremoved⟩ := failed_call_iff (.removeFile ⟨"/A.js"⟩) hsteps
  exact ⟨e, m', t', hsteps, ht', (hremoved ⟨"/A.js"⟩ rfl).1, fun heq => hkept.1 heq _ rfl⟩

/-- The file is unregistered by a call that fails. Once the directory is gone, the same call removes
nothing, but it would have removed the class before. -/
theorem failed_call_unregisters : ∃ e m',
    (Call.removeFile ⟨"/A.js"⟩).run oneFile blockedFiles = (.error e, m', blockedFiles) ∧
      oneFile.classOf? ⟨"/A.js"⟩ = some "a.A" ∧ m'.classOf? ⟨"/A.js"⟩ = none ∧
      (Call.removeFile ⟨"/A.js"⟩).run m' {} = (.ok (.removed none), m', {}) ∧
      ((Call.removeFile ⟨"/A.js"⟩).run oneFile {}).1 = .ok (.removed (some "a.A")) := by
  obtain ⟨e, m', t', hrun⟩ := removeFile_blocked
  obtain ⟨-, rfl, rfl⟩ := removeFile_error (removeFile_of_run hrun)
  have hgone := classOf?_unregistered oneFile ⟨"/A.js"⟩
  exact ⟨e, _, hrun, by decide +kernel, hgone, Call.run_removeFile_of_unregistered hgone {},
    by decide +kernel⟩

end Metadata

end ClassForge
