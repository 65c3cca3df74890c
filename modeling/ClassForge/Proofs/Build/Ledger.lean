import ClassForge.Build.Step

/-!
# What a build keeps track of

Requests share compiles and runs through the slots of the makers, the compiles and runs there have
been, the wave and the tasks that are to begin. Whatever else a step does leaves these alone, so that
each step can do one of a few things to them.
-/

namespace ClassForge

def CompileJob.isDone (j : CompileJob) : Bool :=
  match j.progress with
  | .done _ _ => true
  | _ => false

def MakeRun.isDone (r : MakeRun) : Bool :=
  match r.progress with
  | .done _ => true
  | _ => false

namespace Build

structure Ledger where
  slots : Nat → MakeSlot
  runs : List MakeRun
  jobs : List CompileJob
  wave : Wave
  spawned : List Task
  autoMake : Bool

def ledger (b : Build) : Ledger := ⟨b.slots, b.runs, b.jobs, b.wave, b.spawned, b.autoMake⟩

def Ledger.setJob (l : Ledger) (j : Nat) (job : CompileJob) : Ledger :=
  { l with jobs := l.jobs.set j job }

def Ledger.setRun (l : Ledger) (r : Nat) (run : MakeRun) : Ledger :=
  { l with runs := l.runs.set r run }

variable (b : Build)

/-! ## Steps that leave it alone -/

@[simp] theorem ledger_handle (change : ClassChange) : (b.handle change).1.ledger = b.ledger := by
  rw [handle]
  cases change.kind <;> rfl

/-! ## Compiles -/

structure Working (b b' : Build) : Prop where
  ledger : b'.ledger = b.ledger
  cache : b'.cache = b.cache

theorem Working.trans {b b' b'' : Build} (h : b.Working b') (h' : b'.Working b'') : b.Working b'' :=
  ⟨h'.ledger.trans h.ledger, h'.cache.trans h.cache⟩

theorem Working.jobs {b b' : Build} (h : b.Working b') : b'.jobs = b.jobs :=
  congrArg Ledger.jobs h.ledger

theorem ensureSnapshot_keeps : b.Working b.ensureSnapshot.2 ∧ b.ensureSnapshot.2.makers = b.makers := by
  rw [ensureSnapshot]
  split
  · exact ⟨⟨rfl, rfl⟩, rfl⟩
  · rw [install]
    rcases (b.backend.install b.metadata.snapshot).run b.files with ⟨⟨_ | _, backend⟩, files⟩
    · exact ⟨⟨rfl, rfl⟩, rfl⟩
    · exact ⟨⟨rfl, rfl⟩, rfl⟩

@[simp] theorem makers_finishJob (j : Nat) (job : CompileJob) (outcome : CompileOutcome) :
    (b.finishJob j job outcome).makers = b.makers := rfl

@[simp] theorem events_finishJob (j : Nat) (job : CompileJob) (outcome : CompileOutcome) :
    (b.finishJob j job outcome).events = b.events := rfl

inductive JobEnd (b : Build) (job : CompileJob) (b' : Build) : CompileOutcome → Prop
  | failed (failure : CompileFailure) (makers : b'.makers = b.makers) :
      JobEnd b job b' (.error failure)
  | reused (info : BuildInfo) (target : String) (makers : b'.makers = b.makers)
      (events : b'.events = b.events ++ [Event.compiledClass job.classname target false]) :
      JobEnd b job b' (.ok info)
  | compiled (info : BuildInfo) (makers : b'.makers = b.makers.modify job.maker fun m =>
        { m with analyser := m.analyser.noteCompiled info }) :
      JobEnd b job b' (.ok info)

theorem performJob_end {b b' : Build} (hworking : b.Working b') (hmakers : b'.makers = b.makers)
    (j : Nat) (job : CompileJob) (m : Maker) (r : CompileRequest) :
    ∃ b'' outcome, b.Working b'' ∧ b.JobEnd job b'' outcome ∧
      b'.performJob j job m r = b''.finishJob j job outcome := by
  rw [performJob]
  rcases (b'.backend.compile r).run b'.files with ⟨⟨failure | info, backend⟩, files⟩
  · refine ⟨{ b' with backend, files }, _, hworking.trans ⟨rfl, rfl⟩, .failed failure hmakers, rfl⟩
  · refine ⟨_, _, hworking.trans ?_, .compiled info (congrArg (List.modify · _ _) hmakers), rfl⟩
    exact ⟨rfl, rfl⟩

theorem beginJob_turn (j : Nat) (job : CompileJob) (m : Maker) :
    (∃ b' r, b.Working b' ∧ b'.makers = b.makers ∧ b.beginJob j job m =
      { b' with jobs := b'.jobs.set j { job with progress := .begun r } }) ∨
    ∃ b' outcome, b.Working b' ∧ b.JobEnd job b' outcome ∧
      b.beginJob j job m = b'.finishJob j job outcome := by
  rw [beginJob]
  cases b.classes.get? job.classname with
  | none => exact .inr ⟨b, _, ⟨rfl, rfl⟩, .failed _ rfl, rfl⟩
  | some sourcePath =>
    simp only
    split
    · next info _ =>
      let reused : Event := .compiledClass job.classname m.analyser.target false
      exact .inr ⟨b.emit reused, _, ⟨rfl, rfl⟩, .reused info _ rfl rfl, rfl⟩
    · obtain ⟨hworking, hmakers⟩ :=
        (b.emit (.compilingClass job.classname m.analyser.target)).ensureSnapshot_keeps
      have hemit : b.Working (b.emit (.compilingClass job.classname m.analyser.target)) := ⟨rfl, rfl⟩
      rcases hensure : (b.emit (.compilingClass job.classname m.analyser.target)).ensureSnapshot
        with ⟨failure | ⟨⟩, b'⟩
      · rw [hensure] at hworking hmakers
        exact .inr ⟨b', _, hemit.trans hworking, .failed _ hmakers, rfl⟩
      · rw [hensure] at hworking hmakers
        simp only
        split
        · exact .inl ⟨b', _, hemit.trans hworking, hmakers, rfl⟩
        · exact .inr (performJob_end (hemit.trans hworking) hmakers j job m _)

theorem stepJob_turn (j : Nat) :
    (b.stepJob j = b ∧ ∀ job, b.jobs[j]? = some job → job.isDone = true ∨ b.makers[job.maker]? = none) ∨
    ∃ job, b.jobs[j]? = some job ∧ job.isDone = false ∧
      ((∃ b' r, b.Working b' ∧ b'.makers = b.makers ∧ job.progress = .fresh ∧ b.stepJob j =
        { b' with jobs := b'.jobs.set j { job with progress := .begun r } }) ∨
      ∃ b' outcome, b.Working b' ∧ b.JobEnd job b' outcome ∧
        b.stepJob j = b'.finishJob j job outcome) := by
  rw [stepJob]
  cases hjob : b.jobs[j]? with
  | none => exact .inl ⟨rfl, fun _ h => by cases h⟩
  | some job =>
    simp only
    split
    · next m hm hfresh =>
      right
      refine ⟨job, rfl, by simp [CompileJob.isDone, hfresh], ?_⟩
      obtain ⟨b', r, hworking, hmakers, heq⟩ | hend := b.beginJob_turn j job m
      · exact .inl ⟨b', r, hworking, hmakers, hfresh, heq⟩
      · exact .inr hend
    · next m r hm hbegun =>
      exact .inr ⟨job, rfl, by simp [CompileJob.isDone, hbegun],
        .inr (performJob_end ⟨rfl, rfl⟩ rfl j job m r)⟩
    · next hfresh hbegun =>
      refine .inl ⟨rfl, fun job' h => ?_⟩
      cases h
      cases hm : b.makers[job.maker]? with
      | none => exact .inr rfl
      | some m =>
        left
        cases hprogress : job.progress with
        | fresh => exact absurd hprogress (hfresh m hm)
        | begun r => exact absurd hprogress (hbegun m r hm)
        | done outcome again => simp [CompileJob.isDone, hprogress]

theorem stepJob_cases (j : Nat) :
    (b.stepJob j).ledger = b.ledger ∨
    ∃ job, b.jobs[j]? = some job ∧ job.isDone = false ∧
      ((∃ r, (b.stepJob j).ledger = b.ledger.setJob j { job with progress := .begun r }) ∨
      ∃ (b' : Build) (outcome : CompileOutcome),
        b'.ledger = b.ledger ∧ b.stepJob j = b'.finishJob j job outcome) := by
  obtain ⟨heq, -⟩ | ⟨job, hjob, hopen, ⟨b', r, hworking, -, -, heq⟩ | ⟨b', outcome, hworking, -, heq⟩⟩ :=
    b.stepJob_turn j
  · exact .inl (congrArg ledger heq)
  · refine .inr ⟨job, hjob, hopen, .inl ⟨r, ?_⟩⟩
    rw [heq, ← hworking.ledger]
    rfl
  · exact .inr ⟨job, hjob, hopen, .inr ⟨b', outcome, hworking.ledger, heq⟩⟩

theorem stepCompile_cases (t : CompileThread) :
    (b.stepCompile t).1.ledger = b.ledger ∨
    ∃ force j, (b.stepCompile t).1.ledger =
      { b.ledger with
        wave := b.wave.start
        jobs := b.jobs ++ [{ maker := t.maker, classname := t.classname, force }]
        spawned := b.spawned ++ [.drive j] } := by
  rw [stepCompile]
  split
  · rename_i force _
    rcases b.cache.lookup (b.outputDir t.maker) t.classname force b.jobs.length
      with ⟨info | running | j, cache⟩
    · exact .inl rfl
    · exact .inl rfl
    · exact .inr ⟨force, j, rfl⟩
  · left
    split <;> rfl
  · exact .inl rfl

/-! ## Runs -/

theorem growRun_ledger (r : Nat) (run : MakeRun) (m : Maker) (known : List String)
    (resources : ResourceIndex) (e : Expansion) :
    ∃ progress, (b.growRun r run m known resources e).ledger =
      b.ledger.setRun r { run with progress } := by
  rw [growRun]
  split
  · exact ⟨_, rfl⟩
  · exact ⟨_, rfl⟩

/-- The build after a step of a maker that ended in the state `s`. -/
def wrote (i : Nat) (s : Making) : Build :=
  { b.updateMaker i (fun _ => s.maker) with files := s.files, events := b.events ++ s.events }

def began (run : MakeRun) (m : Maker) (s : Making) (erased : Bool) : Build :=
  { (b.emit (.makeStarted m.target.name)).wrote run.maker s with
    cache := if erased then b.cache.clear m.target.outputDir else b.cache }

theorem beginRun_cases (r : Nat) (run : MakeRun) (m : Maker) : ∃ result s,
    (Maker.begin b.metadata.classnames).run { files := b.files, maker := m } = (result, s) ∧
    ((∃ e, result = .error e ∧ b.beginRun r run m =
      ((b.emit (.makeStarted m.target.name)).wrote run.maker s).finishRun r run m (.error e)) ∨
    ∃ erased m' resources, result = .ok erased ∧
      m' = ((b.began run m s erased).makers[run.maker]?).getD m ∧
      b.beginRun r run m = (b.began run m s erased).growRun r run m' b.metadata.classnames resources
        (m'.analyser.begin b.classes.contains)) := by
  have hstep : (b.emit (.makeStarted m.target.name)).withMaker run.maker m
      (Maker.begin b.metadata.classnames) =
    (((Maker.begin b.metadata.classnames).run { files := b.files, maker := m }).1,
      (b.emit (.makeStarted m.target.name)).wrote run.maker
        ((Maker.begin b.metadata.classnames).run { files := b.files, maker := m }).2) := rfl
  unfold beginRun
  dsimp only
  rw [hstep]
  rcases (Maker.begin b.metadata.classnames).run { files := b.files, maker := m } with ⟨e | erased, s⟩
  · exact ⟨_, s, rfl, .inl ⟨e, rfl, rfl⟩⟩
  · cases erased <;> exact ⟨_, s, rfl, .inr ⟨_, _, _, rfl, rfl, rfl⟩⟩

theorem beginRun_ledger (r : Nat) (run : MakeRun) (m : Maker) :
    ∃ progress, (b.beginRun r run m).ledger = b.ledger.setRun r { run with progress } := by
  obtain ⟨_, s, -, ⟨e, -, heq⟩ | ⟨erased, m', resources, -, -, heq⟩⟩ := b.beginRun_cases r run m
  · exact ⟨_, by rw [heq]; rfl⟩
  · rw [heq]
    exact growRun_ledger (b.began run m s erased) r run m' _ resources _

theorem stepRun_cases (r : Nat) :
    (b.stepRun r).ledger = b.ledger ∨
    ∃ run progress, b.runs[r]? = some run ∧ run.isDone = false ∧
      (b.stepRun r).ledger = b.ledger.setRun r { run with progress } := by
  rw [stepRun]
  cases hrun : b.runs[r]? with
  | none => exact .inl rfl
  | some run =>
    simp only
    split
    · exact .inr ⟨run, _, rfl, by simp [MakeRun.isDone, *], rfl⟩
    · obtain ⟨progress, hledger⟩ := b.beginRun_ledger r run _
      exact .inr ⟨run, progress, rfl, by simp [MakeRun.isDone, *], hledger⟩
    · split
      · exact .inl rfl
      · obtain ⟨progress, hledger⟩ := growRun_ledger _ r run _ _ _ _
        exact .inr ⟨run, progress, rfl, by simp [MakeRun.isDone, *], hledger⟩
    · exact .inl rfl

theorem stepMake_cases (t : MakeThread) :
    -- it joins the run that is under way
    (∃ r, t.progress = .asking ∧ (b.slots t.maker).running = some r ∧
      b.stepMake t =
        (b.setSlot t.maker { running := some r, dirty := (b.slots t.maker).dirty || t.dirty },
          { t with progress := .waiting r false })) ∨
    -- it starts a run
    (t.progress = .asking ∧ (b.slots t.maker).running = none ∧
      b.stepMake t =
        ({ b.setSlot t.maker { running := some b.runs.length, dirty := false } with
            runs := b.runs ++ [{ maker := t.maker }] },
          { t with progress := .waiting b.runs.length true })) ∨
    -- the run it started has ended
    (∃ r result, t.progress = .waiting r true ∧ b.runResult? r = some result ∧
      b.stepMake t = (b.setSlot t.maker {},
        { t with progress := if (b.slots t.maker).dirty then .asking else .done result })) ∨
    -- the run it joined has ended
    (∃ r result, t.progress = .waiting r false ∧
      b.stepMake t = (b, { t with progress := .done result })) ∨
    t.progress ≠ .asking ∧ b.stepMake t = (b, t) := by
  cases hprogress : t.progress with
  | asking =>
    cases hrunning : (b.slots t.maker).running with
    | some r =>
      refine .inl ⟨r, rfl, rfl, ?_⟩
      simp [stepMake, hprogress, MakeSlot.request, hrunning]
    | none =>
      refine .inr (.inl ⟨rfl, rfl, ?_⟩)
      simp [stepMake, hprogress, MakeSlot.request, hrunning, setSlot]
  | waiting r started =>
    cases hresult : b.runResult? r with
    | none =>
      refine .inr (.inr (.inr (.inr ⟨by simp, ?_⟩)))
      simp [stepMake, hprogress, hresult]
    | some result =>
      cases started with
      | true =>
        refine .inr (.inr (.inl ⟨r, result, rfl, hresult, ?_⟩))
        rw [stepMake, hprogress]
        simp only [hresult, if_true]
        rfl
      | false =>
        refine .inr (.inr (.inr (.inl ⟨r, result, rfl, ?_⟩)))
        simp [stepMake, hprogress, hresult]
  | done result =>
    refine .inr (.inr (.inr (.inr ⟨by simp, ?_⟩)))
    simp [stepMake, hprogress]

end Build

end ClassForge
