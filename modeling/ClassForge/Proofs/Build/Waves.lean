import ClassForge.Proofs.Build.Interleaving

/-!
# Waves of compiles

The wave counts the compiles that have begun and not ended, however compiles of different classes
overlap. A maker that is noted when a compile ends stays noted until the count is zero, and then gets
its request to make.
-/

namespace ClassForge

namespace Wave

theorem mem_insertNumber {i n : Nat} {l : List Nat} : i ∈ insertNumber n l ↔ i = n ∨ i ∈ l := by
  induction l with
  | nil => simp [insertNumber]
  | cons m rest ih =>
    rw [insertNumber]
    split
    · simp
    · split
      · simp [*]
      · simp only [List.mem_cons, ih]
        tauto

theorem mem_foldl_insertNumber {i : Nat} {makers l : List Nat} :
    i ∈ makers.foldl (fun l n => insertNumber n l) l ↔ i ∈ makers ∨ i ∈ l := by
  induction makers generalizing l with
  | nil => simp
  | cons n makers ih =>
    rw [List.foldl_cons, ih, mem_insertNumber, List.mem_cons]
    tauto

theorem finish_cases (w : Wave) (makers : List Nat) :
    (w.inFlight ≤ 1 ∧ (w.finish makers).2 = {} ∧
      ∀ i, i ∈ (w.finish makers).1 ↔ i ∈ makers ∨ i ∈ w.pending) ∨
    1 < w.inFlight ∧ (w.finish makers).1 = [] ∧ (w.finish makers).2.inFlight = w.inFlight - 1 ∧
      ∀ i, i ∈ (w.finish makers).2.pending ↔ i ∈ makers ∨ i ∈ w.pending := by
  by_cases h : w.inFlight - 1 = 0
  · refine .inl ⟨by omega, by simp [finish, h], fun i => ?_⟩
    simp [finish, h, mem_foldl_insertNumber]
  · refine .inr ⟨by omega, by simp [finish, h], by simp [finish, h], fun i => ?_⟩
    simp [finish, h, mem_foldl_insertNumber]

end Wave

namespace Build

def underway (b : Build) : Nat := b.jobs.countP (!·.isDone)

theorem underway_set {b b' : Build} {j : Nat} {job job' : CompileJob} (hjob : b.jobs[j]? = some job)
    (hopen : job.isDone = false) (hjobs : b'.jobs = b.jobs.set j job') :
    b'.underway + (if job'.isDone then 1 else 0) = b.underway := by
  obtain ⟨hj, hget⟩ := List.getElem?_eq_some_iff.1 hjob
  have hpos : 0 < b.jobs.countP (!·.isDone) := by
    refine List.countP_pos_iff.2 ⟨job, List.mem_of_getElem? hjob, by simp [hopen]⟩
  simp only [underway, hjobs, List.countP_set hj, hget, hopen]
  cases job'.isDone <;> simp <;> omega

namespace System

variable {s : System} {a : Action} {i j : Nat} {c : String}

/-- A compile of a class ends with a turn. -/
def Completes (s : System) (j : Nat) (c : String) : Prop :=
  ∃ job job', s.build.jobs[j]? = some job ∧ job.isDone = false ∧ job.classname = c ∧
    (s.act (.job j)).build.jobs[j]? = some job' ∧ job'.isDone = true

/-- A turn ends a compile and gives a maker its request to make, as one that says that something has
changed. -/
def Hands (i : Nat) (s : System) (a : Action) : Prop :=
  ∃ j c threads, a = .job j ∧ s.Completes j c ∧
    (s.act a).build.spawned = s.build.spawned ++ [Task.makes threads] ∧
    { maker := i, dirty := true } ∈ threads

structure Ending (s : System) (j : Nat) (c : String) (noted : List Nat) : Prop where
  completes : s.Completes j c
  noted_eq : noted = if s.build.autoMake then (s.act (.job j)).build.dependents c else []
  wave : (s.act (.job j)).build.wave = (s.build.wave.finish noted).2
  underway : (s.act (.job j)).build.underway + 1 = s.build.underway
  handed : ∀ i ∈ (s.build.wave.finish noted).1, Hands i s (.job j)

theorem ending_of_finishJob {b : Build} {job : CompileJob} {outcome : CompileOutcome}
    (hledger : b.ledger = s.build.ledger) (hjob : s.build.jobs[j]? = some job)
    (hopen : job.isDone = false) (heq : s.build.stepJob j = b.finishJob j job outcome) :
    s.Ending j job.classname (if s.build.autoMake then b.dependents job.classname else []) := by
  have hjobs : b.jobs = s.build.jobs := congrArg Ledger.jobs hledger
  have hwave : b.wave = s.build.wave := congrArg Ledger.wave hledger
  have hauto : b.autoMake = s.build.autoMake := congrArg Ledger.autoMake hledger
  have hspawned : b.spawned = s.build.spawned := congrArg Ledger.spawned hledger
  have hact : (s.act (.job j)).build = b.finishJob j job outcome := heq
  obtain ⟨again, hset⟩ : ∃ again, (b.finishJob j job outcome).jobs =
      s.build.jobs.set j { job with progress := .done outcome again } := by
    rw [← hjobs]
    exact ⟨_, rfl⟩
  have hcompletes : s.Completes j job.classname := by
    refine ⟨job, { job with progress := .done outcome again }, hjob, hopen, rfl, ?_, rfl⟩
    rw [hact, hset, List.getElem?_set_self (List.getElem?_eq_some_iff.1 hjob).1]
  have hnoted : (if b.autoMake then b.dependents job.classname else []) =
      if s.build.autoMake then b.dependents job.classname else [] := by rw [hauto]
  constructor
  · exact hcompletes
  · rw [hact]
    rfl
  · rw [hact, ← hwave, ← hnoted]
    rfl
  · rw [hact, ← underway_set hjob hopen hset]
    rfl
  · intro i hi
    rw [← hwave, ← hnoted] at hi
    let remake (maker : Nat) : MakeThread := { maker, dirty := true }
    refine ⟨j, job.classname, _, rfl, hcompletes, ?_, List.mem_map_of_mem (f := remake) hi⟩
    rw [hact, ← hspawned, finishJob]
    simp [List.ne_nil_of_mem hi, remake]

theorem stepCompile_wave (b : Build) (t : CompileThread) :
    ((b.stepCompile t).1.wave = b.wave ∧ (b.stepCompile t).1.underway = b.underway) ∨
    ((b.stepCompile t).1.wave = b.wave.start ∧
      (b.stepCompile t).1.underway = b.underway + 1) := by
  rcases b.stepCompile_cases t with h | ⟨force, j, h⟩
  · have hjobs : (b.stepCompile t).1.jobs = b.jobs := congrArg Ledger.jobs h
    exact .inl ⟨congrArg Ledger.wave h, by rw [Build.underway, hjobs, Build.underway]⟩
  · have hjobs : (b.stepCompile t).1.jobs = b.jobs ++ [_] := congrArg Ledger.jobs h
    refine .inr ⟨congrArg Ledger.wave h, ?_⟩
    simp [Build.underway, hjobs, CompileJob.isDone]

theorem stepMake_jobs (b : Build) (t : MakeThread) :
    (b.stepMake t).1.wave = b.wave ∧ (b.stepMake t).1.jobs = b.jobs := by
  rcases b.stepMake_cases t with
    ⟨r, -, -, heq⟩ | ⟨-, -, heq⟩ | ⟨r, result, -, -, heq⟩ | ⟨r, result, -, heq⟩ | ⟨-, heq⟩ <;>
    rw [heq] <;> exact ⟨rfl, rfl⟩

/-- A turn leaves the wave alone, begins a compile or ends one. -/
theorem act_wave (s : System) (a : Action) :
    ((s.act a).build.wave = s.build.wave ∧ (s.act a).build.underway = s.build.underway) ∨
    ((s.act a).build.wave = s.build.wave.start ∧
      (s.act a).build.underway = s.build.underway + 1) ∨
    ∃ j c noted, a = .job j ∧ s.Ending j c noted := by
  have hkept {b : Build} (hwave : b.wave = s.build.wave) (hjobs : b.jobs = s.build.jobs) :
      b.wave = s.build.wave ∧ b.underway = s.build.underway := by
    exact ⟨hwave, by rw [Build.underway, hjobs, Build.underway]⟩
  cases a with
  | askCompile maker classname force => exact .inl ⟨rfl, rfl⟩
  | askMake maker dirty => exact .inl ⟨rfl, rfl⟩
  | compile k =>
    simp only [act]
    split
    · exact .inl ⟨rfl, rfl⟩
    · exact (stepCompile_wave s.build ‹_›).imp_right .inl
  | compileIn r k =>
    simp only [act]
    split
    · split
      · exact .inl ⟨rfl, rfl⟩
      · exact (stepCompile_wave s.build ‹_›).imp_right .inl
    · exact .inl ⟨rfl, rfl⟩
  | job j =>
    rcases s.build.stepJob_cases j with h | ⟨job, hjob, hopen, ⟨r, h⟩ | ⟨b, outcome, h, heq⟩⟩
    · exact .inl (hkept (congrArg Ledger.wave h) (congrArg Ledger.jobs h))
    · have hset : (s.build.stepJob j).jobs = s.build.jobs.set j { job with progress := .begun r } :=
        congrArg Ledger.jobs h
      exact .inl ⟨congrArg Ledger.wave h, underway_set hjob hopen hset⟩
    · exact .inr (.inr ⟨j, job.classname, _, rfl, ending_of_finishJob h hjob hopen heq⟩)
  | make k =>
    simp only [act]
    split
    · exact .inl ⟨rfl, rfl⟩
    · obtain ⟨hwave, hjobs⟩ := stepMake_jobs s.build (Requester.thread ‹_›)
      exact .inl (hkept hwave hjobs)
  | run r =>
    rcases s.build.stepRun_cases r with h | ⟨run, progress, -, -, h⟩
    · exact .inl (hkept (congrArg Ledger.wave h) (congrArg Ledger.jobs h))
    · exact .inl (hkept (congrArg Ledger.wave h) (congrArg Ledger.jobs h))
  | change change =>
    have h := s.build.ledger_handle change
    exact .inl (hkept (congrArg Ledger.wave h) (congrArg Ledger.jobs h))
  | autoMake on => exact .inl ⟨rfl, rfl⟩
  | edit files => exact .inl ⟨rfl, rfl⟩

/-- The wave counts the compiles that are under way, and nothing is noted without one. -/
structure Balanced (b : Build) : Prop where
  counted : b.wave.inFlight = b.underway
  drained : b.wave.inFlight = 0 → b.wave.pending = []

theorem Balanced.act (h : Balanced s.build) (a : Action) : Balanced (s.act a).build := by
  rcases s.act_wave a with ⟨hwave, hunderway⟩ | ⟨hwave, hunderway⟩ | ⟨j, c, noted, rfl, he⟩
  · exact ⟨by rw [hwave, hunderway, h.counted], by rw [hwave]; exact h.drained⟩
  · refine ⟨by rw [hwave, hunderway, ← h.counted]; rfl, ?_⟩
    intro hzero
    rw [hwave] at hzero
    cases hzero
  · have hcounted := h.counted
    have hunderway := he.underway
    rcases s.build.wave.finish_cases noted with ⟨hlast, hempty, -⟩ | ⟨hmore, -, hless, -⟩
    · refine ⟨?_, by simp [he.wave, hempty]⟩
      simp only [he.wave, hempty]
      omega
    · refine ⟨by rw [he.wave, hless]; omega, ?_⟩
      intro hzero
      rw [he.wave, hless] at hzero
      omega

theorem pending_step (hi : i ∈ s.build.wave.pending) (a : Action) :
    Hands i s a ∨ i ∈ (s.act a).build.wave.pending := by
  rcases s.act_wave a with ⟨hwave, -⟩ | ⟨hwave, -⟩ | ⟨j, c, noted, rfl, he⟩
  · exact .inr (hwave ▸ hi)
  · exact .inr (hwave ▸ hi)
  · rcases s.build.wave.finish_cases noted with ⟨-, -, hmem⟩ | ⟨-, -, -, hmem⟩
    · exact .inl (he.handed i ((hmem i).2 (.inr hi)))
    · right
      rw [he.wave]
      exact (hmem i).2 (.inr hi)

theorem Completes.ending (h : s.Completes j c) : ∃ noted, s.Ending j c noted := by
  obtain ⟨job, job', hjob, hopen, rfl, hjob', hdone⟩ := h
  rcases s.build.stepJob_cases j with hl | ⟨job₁, hjob₁, -, ⟨r, hl⟩ | ⟨b, outcome, hl, heq⟩⟩
  · have hjobs : (s.act (.job j)).build.jobs = s.build.jobs := congrArg Ledger.jobs hl
    rw [hjobs, hjob] at hjob'
    cases hjob'
    rw [hopen] at hdone
    cases hdone
  · have hjobs : (s.act (.job j)).build.jobs =
        s.build.jobs.set j { job₁ with progress := .begun r } := congrArg Ledger.jobs hl
    rw [hjobs, List.getElem?_set_self (List.getElem?_eq_some_iff.1 hjob).1] at hjob'
    cases hjob'
    cases hdone
  · obtain rfl := Option.some.inj (hjob.symm.trans hjob₁)
    exact ⟨_, ending_of_finishJob hl hjob hopen heq⟩

theorem Completes.hands_or_pending (h : s.Completes j c) (hauto : s.build.autoMake = true)
    (hi : i ∈ (s.act (.job j)).build.dependents c) :
    Hands i s (.job j) ∨ i ∈ (s.act (.job j)).build.wave.pending := by
  obtain ⟨noted, he⟩ := h.ending
  have hi : i ∈ noted := by rwa [he.noted_eq, if_pos hauto]
  rcases s.build.wave.finish_cases noted with ⟨-, -, hmem⟩ | ⟨-, -, -, hmem⟩
  · exact .inl (he.handed i ((hmem i).2 (.inl hi)))
  · right
    rw [he.wave]
    exact (hmem i).2 (.inl hi)

/-! ## No remake is lost -/

/-- What holds after a schedule. -/
structure Drained (start : System) (schedule : List Action) : Prop where
  counted : (schedule.foldl System.act start).build.wave.inFlight =
    (schedule.foldl System.act start).build.underway
  /-- The count is not zero before the last compile ends. -/
  positive : ∀ j c, (schedule.foldl System.act start).Completes j c →
    0 < (schedule.foldl System.act start).build.wave.inFlight
  none_pending : (schedule.foldl System.act start).build.wave.inFlight = 0 →
    (schedule.foldl System.act start).build.wave.pending = []
  /-- A maker that needs a class gets its request when the compile of that class ends or when a
  later one does, by the time when the count is zero. -/
  handed_over : ∀ (before later : List Action) (j i : Nat) (c : String),
    schedule = before ++ .job j :: later → (before.foldl System.act start).Completes j c →
    (before.foldl System.act start).build.autoMake = true →
    i ∈ ((before.foldl System.act start).act (.job j)).build.dependents c →
    (schedule.foldl System.act start).build.wave.inFlight = 0 →
    Happened System.act (before.foldl System.act start) (.job j :: later) (Hands i)

theorem Balanced.run (h : Balanced s.build) (schedule : List Action) :
    Balanced (schedule.foldl System.act s).build :=
  List.foldlRecOn (motive := fun s => Balanced s.build) schedule System.act h
    fun _ h a _ => Balanced.act h a

theorem Completes.underway_pos (h : s.Completes j c) : 0 < s.build.underway := by
  obtain ⟨noted, he⟩ := h.ending
  have := he.underway
  omega

theorem waves_drained (files : FileTree) (backend : Backend) (metadata : Metadata)
    (classes : Table Path) (makers : List Maker) (schedule : List Action) :
    Drained (start files backend metadata classes makers) schedule := by
  have hb : Balanced (start files backend metadata classes makers).build := ⟨rfl, fun _ => rfl⟩
  generalize start files backend metadata classes makers = s₀ at hb
  have hend := hb.run schedule
  constructor
  · exact hend.counted
  · intro j c hc
    rw [hend.counted]
    exact hc.underway_pos
  · exact hend.drained
  · rintro before later j i c rfl hc hauto hi hzero
    have hpending := hend.drained hzero
    rw [List.foldl_append, List.foldl_cons] at hpending
    rcases hc.hands_or_pending hauto hi with h | h
    · exact .head h
    · have hstep : ∀ (s : System) a, i ∈ s.build.wave.pending →
          Hands i s a ∨ i ∈ (s.act a).build.wave.pending := fun _ a h => pending_step h a
      rcases happened_or hstep h later with h | h
      · exact .tail h
      · rw [hpending] at h
        cases h

def soleMaker : Maker :=
  { target := { kind := .source, config := { kind := "source", outputPath := ⟨"out"⟩ } }
    analyser := { target := "source", outputDir := ⟨"out"⟩ }
    applications := [{ mainClass := "a.A" }]
    libraries := {}
    locales := []
    projectDir := ⟨""⟩ }

def soleStart : System :=
  start {} { transformer := .passthrough, engine := .inline {} } { rootDir := ⟨"meta"⟩ } .empty
    [soleMaker]

def twoUnderway : List Action :=
  [.autoMake true, .askCompile 0 "a.A" false, .askCompile 0 "b.B" false, .compile 0, .compile 1]

theorem waves_drained_overlapping :
    (twoUnderway.foldl System.act soleStart).Completes 0 "a.A" ∧
    Happened System.act (twoUnderway.foldl System.act soleStart) (.job 0 :: [.job 1]) (Hands 0) := by
  have hc : (twoUnderway.foldl System.act soleStart).Completes 0 "a.A" :=
    ⟨_, _, rfl, rfl, rfl, rfl, rfl⟩
  refine ⟨hc, ?_⟩
  exact (waves_drained {} { transformer := .passthrough, engine := .inline {} }
    { rootDir := ⟨"meta"⟩ } .empty [soleMaker] (twoUnderway ++ Action.job 0 :: [.job 1])).handed_over
      _ _ 0 0 _ rfl hc rfl (by decide +kernel) (by decide +kernel)

end System

end Build

end ClassForge
