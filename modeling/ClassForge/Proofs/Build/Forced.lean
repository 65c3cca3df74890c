import ClassForge.Proofs.Build.Answers
import ClassForge.Proofs.Build.Recompiles
import Mathlib.Data.List.Induction

/-!
# Forced requests

A forced request gets neither what the cache held before it nor what comes of a compile that was under
way then: its answer comes from a compile that has begun since. That compile asks the backend, unless the
request was told to ask again because its class had been marked meanwhile. It asks without force then,
and the build information in the output directory may do.
-/

namespace ClassForge

/-- The build information with which a request has been answered. -/
def CompileThread.info? (t : CompileThread) : Option BuildInfo :=
  match t.progress with
  | .done (.ok info) => some info
  | _ => none

theorem CompileThread.info?_eq_some {t : CompileThread} {info : BuildInfo} :
    t.info? = some info ↔ t.progress = .done (.ok info) := by
  rw [info?]
  split
  · next h => simp [h]
  · next hnot => simpa using hnot info

namespace Build

variable {b b' : Build} {i j n : Nat} {c : String} {k : Cache.Key} {t : CompileThread}
  {job : CompileJob} {info : BuildInfo} {outcome : CompileOutcome} {own : Option Nat} {again : Prop}

/-! ## Where build information comes from -/

/-- A turn asks the backend for the class of a compile. The backend has been given the metadata before,
if it lacked them. -/
structure Performs (b : Build) (job : CompileJob) (b' : Build) (info : BuildInfo) : Prop where
  asked : ∃ r b₁, r.classname = job.classname ∧ (b₁ = b ∨ b₁ = b.ensureSnapshot.2) ∧
    (b₁.backend.compile r).run b₁.files = ((.ok info, b'.backend), b'.files)
  reported : ∃ target, b'.events.getLast? = some (.compiledClass job.classname target true)

/-- A turn finds build information of the class of a compile that is not forced. -/
structure Rereads (b : Build) (job : CompileJob) (b' : Build) (info : BuildInfo) : Prop where
  unforced : job.force = false
  found : ∃ m sourcePath, b.makers[job.maker]? = some m ∧
    b.classes.get? job.classname = some sourcePath ∧
    Compilation.reusable? b.files m.analyser.outputDir job.classname sourcePath = some info
  reported : ∃ target, b'.events.getLast? = some (.compiledClass job.classname target false)

def Concludes (b : Build) (j : Nat) (job : CompileJob) (b' : Build) : Prop :=
  ∃ outcome again, b'.jobs[j]? = some { job with progress := .done outcome again } ∧
    ∀ info, outcome = .ok info → b.Performs job b' info ∨ b.Rereads job b' info

theorem concludes_finishJob (b' : Build) (hjobs : b'.jobs = b.jobs) (hj : j < b.jobs.length)
    (hhow : ∀ info, outcome = .ok info → b.Performs job (b'.finishJob j job outcome) info ∨
      b.Rereads job (b'.finishJob j job outcome) info) :
    b.Concludes j job (b'.finishJob j job outcome) :=
  ⟨outcome, _, List.getElem?_set_self (hjobs ▸ hj), hhow⟩

theorem concludes_of_error (b' : Build) (hjobs : b'.jobs = b.jobs) (hj : j < b.jobs.length)
    (failure : CompileFailure) : b.Concludes j job (b'.finishJob j job (.error failure)) := by
  refine concludes_finishJob b' hjobs hj ?_
  rintro info ⟨⟩

theorem concludes_performJob (b₁ : Build) {r : CompileRequest} (hj : j < b.jobs.length)
    (hjobs : b₁.jobs = b.jobs) (hclass : r.classname = job.classname)
    (hb₁ : ∃ b₂, (b₂ = b ∨ b₂ = b.ensureSnapshot.2) ∧ b₂.backend = b₁.backend ∧ b₂.files = b₁.files)
    (m : Maker) : b.Concludes j job (b₁.performJob j job m r) := by
  obtain ⟨b₂, hb₂, hbackend, hfiles⟩ := hb₁
  rw [performJob]
  rcases hrun : (b₁.backend.compile r).run b₁.files with ⟨⟨failure | info, backend⟩, files⟩
  · exact concludes_of_error { b₁ with backend, files } hjobs hj failure
  · refine concludes_finishJob _ hjobs hj ?_
    rintro _ ⟨⟩
    left
    constructor
    · refine ⟨r, b₂, hclass, hb₂, ?_⟩
      rw [hbackend, hfiles, hrun]
      rfl
    · exact ⟨m.analyser.target, List.getLast?_concat⟩

theorem ensureSnapshot_emit (b : Build) (e : Event) :
    (b.emit e).ensureSnapshot = (b.ensureSnapshot.1, b.ensureSnapshot.2.emit e) := by
  have hmissing : (b.emit e).missingVersion? = b.missingVersion? := rfl
  rw [ensureSnapshot, ensureSnapshot, hmissing]
  cases b.missingVersion? with
  | none => rfl
  | some version =>
    dsimp only
    unfold install
    have hrun : ((b.emit e).backend.install (b.emit e).metadata.snapshot).run (b.emit e).files =
        (b.backend.install b.metadata.snapshot).run b.files := rfl
    rw [hrun]
    rcases (b.backend.install b.metadata.snapshot).run b.files with ⟨⟨_ | _, backend⟩, files⟩
    · rfl
    · rfl

/-- A compile that begins gives way, to ask for its class later, or ends. -/
theorem beginJob_origin (hj : j < b.jobs.length) {m : Maker} (hm : b.makers[job.maker]? = some m) :
    (∃ r, r.classname = job.classname ∧
      (b.beginJob j job m).jobs[j]? = some { job with progress := .begun r }) ∨
    b.Concludes j job (b.beginJob j job m) := by
  rw [beginJob]
  cases hclass : b.classes.get? job.classname with
  | none => exact .inr (concludes_of_error b rfl hj _)
  | some sourcePath =>
    dsimp only
    split
    · next info hfound =>
      right
      refine concludes_finishJob (b.emit _) rfl hj ?_
      rintro _ ⟨⟩
      right
      cases hforce : job.force with
      | true =>
        rw [hforce] at hfound
        cases hfound
      | false =>
        rw [hforce] at hfound
        exact ⟨hforce, ⟨m, sourcePath, hm, hclass, hfound⟩, ⟨_, List.getLast?_concat⟩⟩
    · rw [ensureSnapshot_emit]
      have hjobs : b.ensureSnapshot.2.jobs = b.jobs := b.ensureSnapshot_keeps.1.jobs
      rcases hensure : b.ensureSnapshot with ⟨failure | ⟨⟩, b₁⟩
      · rw [hensure] at hjobs
        exact .inr (concludes_of_error (b₁.emit _) hjobs hj _)
      · rw [hensure] at hjobs
        dsimp only
        split
        · exact .inl ⟨_, rfl, List.getElem?_set_self (hjobs ▸ hj)⟩
        · right
          refine concludes_performJob (b₁.emit _) hj hjobs rfl ⟨b₁, .inr ?_, rfl, rfl⟩ m
          rw [hensure]

theorem stepJob_origin (hjob : b.jobs[j]? = some job)
    (hclass : ∀ r, job.progress = .begun r → r.classname = job.classname) :
    (b.stepJob j).jobs[j]? = some job ∨
    (∃ r, r.classname = job.classname ∧
      (b.stepJob j).jobs[j]? = some { job with progress := .begun r }) ∨
    b.Concludes j job (b.stepJob j) := by
  have hj : j < b.jobs.length := (List.getElem?_eq_some_iff.1 hjob).1
  rw [stepJob, hjob]
  dsimp only
  split
  · next m hm _ => exact .inr (beginJob_origin hj hm)
  · next m r _ hbegun =>
    exact .inr (.inr (concludes_performJob b hj rfl (hclass r hbegun) ⟨b, .inl rfl, rfl, rfl⟩ m))
  · exact .inl hjob

/-- A compile that gave way is going to ask for its own class. -/
def Requested (b : Build) : Prop :=
  ∀ job ∈ b.jobs, ∀ r, job.progress = .begun r → r.classname = job.classname

theorem requested_stepJob (h : Requested b) (hjob : b.jobs[j]? = some job) {r : CompileRequest}
    (hbegun : (b.stepJob j).jobs = b.jobs.set j { job with progress := .begun r }) :
    r.classname = job.classname := by
  have hclass := h job (List.mem_of_getElem? hjob)
  have hget := congrArg (·[j]?) hbegun
  rw [List.getElem?_set_self (List.getElem?_eq_some_iff.1 hjob).1] at hget
  obtain hsame | ⟨r', hr', hnext⟩ | ⟨outcome, again, hended, -⟩ := stepJob_origin hjob hclass
  · have heq := Option.some.inj (hsame.symm.trans hget)
    exact hclass r (congrArg CompileJob.progress heq)
  · cases hnext.symm.trans hget
    exact hr'
  · cases hended.symm.trans hget

/-! ## Compiles that have begun later -/

def IsLater (b : Build) (again : Prop) (n : Nat) (k : Cache.Key) (j : Nat) : Prop :=
  n ≤ j ∧ ∃ job, b.jobs[j]? = some job ∧ b.key job.maker job.classname = k ∧ (job.force = true ∨ again)

def Gave (b : Build) (again : Prop) (n : Nat) (k : Cache.Key) (outcome : CompileOutcome) : Prop :=
  ∃ j marked, b.IsLater again n k j ∧ b.jobResult? j = some (outcome, marked)

theorem IsLater.mono {again' : Prop} (h : b.IsLater again n k j) (himp : again → again') :
    b.IsLater again' n k j := by
  obtain ⟨hn, job, hjob, hk, hwhy⟩ := h
  exact ⟨hn, job, hjob, hk, hwhy.imp_right himp⟩

theorem Gave.mono {again' : Prop} (h : b.Gave again n k outcome) (himp : again → again') :
    b.Gave again' n k outcome := by
  obtain ⟨j, marked, hlater, hresult⟩ := h
  exact ⟨j, marked, hlater.mono himp, hresult⟩

theorem exists_job_turn (hjob : b.jobs[j]? = some job) (hturn : JobTurn b b' own) :
    ∃ progress, b'.jobs[j]? = some { job with progress } := by
  have hlt : j < b.jobs.length := (List.getElem?_eq_some_iff.1 hjob).1
  have hset {j₀ : Nat} {job₀ : CompileJob} (found : b.jobs[j₀]? = some job₀) (p : JobProgress) :
      ∃ progress, (b.jobs.set j₀ { job₀ with progress := p })[j]? = some { job with progress } := by
    by_cases hj : j₀ = j
    · cases hj
      cases hjob.symm.trans found
      exact ⟨p, List.getElem?_set_self hlt⟩
    · exact ⟨job.progress, (List.getElem?_set_ne hj).trans hjob⟩
  cases hturn with
  | kept jobs _ => exact ⟨job.progress, jobs ▸ hjob⟩
  | started _ _ _ jobs _ _ =>
    refine ⟨job.progress, ?_⟩
    rw [jobs, List.getElem?_append_left hlt, hjob]
  | begun _ _ _ found _ jobs _ _ => exact jobs ▸ hset found _
  | ended _ _ _ _ found _ jobs _ => exact jobs ▸ hset found _

def Opened (b : Build) (j : Nat) (job : CompileJob) : Prop :=
  ∃ progress, b.jobs[j]? = some { job with progress } ∧
    CompileJob.isDone { job with progress } = false

theorem done_turn {marked : Bool} (hturn : JobTurn b b' own) (hjob : b'.jobs[j]? = some job)
    (hdone : job.progress = .done outcome marked) :
    b.jobs[j]? = some job ∨ own = some j ∧ b.Opened j job := by
  cases hturn with
  | kept jobs _ => exact .inl (jobs ▸ hjob)
  | started i c force jobs _ _ =>
    rw [jobs, List.getElem?_append] at hjob
    split at hjob
    · exact .inl hjob
    · cases List.mem_singleton.1 (List.mem_of_getElem? hjob)
      cases hdone
  | begun j₀ job₀ r found _ jobs _ _ =>
    by_cases hne : j₀ = j
    · cases hne
      rw [jobs, List.getElem?_set_self (List.getElem?_eq_some_iff.1 found).1] at hjob
      cases hjob
      cases hdone
    · rw [jobs, List.getElem?_set_ne hne] at hjob
      exact .inl hjob
  | ended j₀ job₀ outcome₀ its found opened jobs _ =>
    by_cases hne : j₀ = j
    · cases hne
      rw [jobs, List.getElem?_set_self (List.getElem?_eq_some_iff.1 found).1] at hjob
      cases hjob
      exact .inr ⟨its, job₀.progress, found, opened⟩
    · rw [jobs, List.getElem?_set_ne hne] at hjob
      exact .inl hjob

theorem IsLater.turn (h : b.IsLater again n k j) (hturn : JobTurn b b' own)
    (hsetups : b'.setups = b.setups) : b'.IsLater again n k j := by
  obtain ⟨hn, job, hjob, hk, hwhy⟩ := h
  obtain ⟨progress, hjob'⟩ := exists_job_turn hjob hturn
  exact ⟨hn, _, hjob', (key_of_setups hsetups ..).trans hk, hwhy⟩

theorem Gave.turn (h : b.Gave again n k outcome) (hturn : JobTurn b b' own)
    (hsetups : b'.setups = b.setups) : b'.Gave again n k outcome := by
  obtain ⟨j, marked, hlater, hresult⟩ := h
  exact ⟨j, marked, hlater.turn hturn hsetups, jobResult?_turn hresult hturn⟩

theorem IsUnderway.isLater (h : b.IsUnderway k j) (hn : n ≤ j) (hagain : again) :
    b.IsLater again n k j := by
  obtain ⟨job, hjob, -, hk⟩ := h
  exact ⟨hn, job, hjob, hk, .inr hagain⟩

/-- The class of a compile has been marked while it was under way. -/
def Marked (b : Build) (k : Cache.Key) (j : Nat) : Prop :=
  b.IsUnderway k j ∧ (b.cache.entryAt k).dirty = true ∨
    ∃ outcome, b.jobResult? j = some (outcome, true)

theorem Marked.turn (hreg : Registered b) (h : b.Marked k j) (hturn : JobTurn b b' own)
    (hsetups : b'.setups = b.setups) : b'.Marked k j := by
  obtain ⟨hopen, hdirty⟩ | ⟨outcome, hagain⟩ := h
  · have hcompiling := (hreg k j).2 hopen
    -- no compile after this one is under way, so that the entry stays outdated
    have hout : (b.cache.entryAt k).IsOutdated (j + 1) := by
      refine ⟨fun _ _ => .inr hdirty, fun hnone => ?_⟩
      rw [hcompiling] at hnone
      cases hnone
    have hlast : ¬ EndsLater (j + 1) k b b' own := by
      rintro ⟨j', _, _, hlater, hopen', -⟩
      cases hcompiling.symm.trans ((hreg k j').2 hopen')
      exact Nat.not_succ_le_self j hlater
    have hout' := (outdated_turn hreg hopen.lt_length hout hturn).resolve_left hlast
    obtain hopen' | hagain := (awaits_turn hreg hout (.inl hopen) hturn hsetups).resolve_left hlast
    · have hcompiling' := (hreg.turn hturn hsetups k j).2 hopen'
      exact .inl ⟨hopen', (hout'.compiling j hcompiling').resolve_left (Nat.not_succ_le_self j)⟩
    · exact .inr hagain
  · exact .inr ⟨outcome, jobResult?_turn hagain hturn⟩

abbrev Renewed (b : Build) (n : Nat) (k : Cache.Key) : Prop :=
  (b.cache.entryAt k).Serves n fun info => b.Gave True n k (.ok info)

theorem renewed_of_started (hn : n ≤ j) (h : (b.cache.entryAt k).compiling = some j) :
    b.Renewed n k where
  compiling j' hj' := by
    cases h.symm.trans hj'
    exact .inl hn
  idle hnone := by
    rw [h] at hnone
    cases hnone

theorem renewed_of_finish {e : CacheEntry} (hentry : b.cache.entryAt k = e.finish outcome)
    (h : e.dirty = true ∨ b.Gave True n k outcome) : b.Renewed n k where
  compiling j hj := by
    rw [hentry] at hj
    cases hj
  idle _ := by
    rw [hentry]
    refine h.imp_right fun hgave info hinfo => ?_
    cases outcome with
    | error failure => cases hinfo
    | ok given =>
      cases hinfo
      exact hgave

theorem Renewed.turn (hreg : Registered b) (hn : n ≤ b.jobs.length) (h : b.Renewed n k)
    (hturn : JobTurn b b' own) (hsetups : b'.setups = b.setups) : b'.Renewed n k := by
  have hgave (info : BuildInfo) (hgave : b.Gave True n k (.ok info)) : b'.Gave True n k (.ok info) :=
    hgave.turn hturn hsetups
  have hsame (hentry : b'.cache.entryAt k = b.cache.entryAt k) : b'.Renewed n k :=
    h.weakens (hentry ▸ .refl _) hgave
  cases hturn with
  | kept jobs entries => exact h.weakens (entries k) hgave
  | started i c force jobs idle entries =>
    by_cases hk : k = b.key i c
    · exact renewed_of_started hn (by rw [entries, if_pos hk])
    · exact hsame ((entries k).trans (if_neg hk))
  | begun _ _ _ _ _ _ cache _ => exact hsame (congrArg (·.entryAt k) cache)
  | ended j job outcome _ found opened jobs entries =>
    by_cases hk : k = b.key job.maker job.classname
    · have hopen : b.IsUnderway k j := ⟨job, found, opened, hk.symm⟩
      have hdone : b'.jobs[j]? = some { job with
          progress := .done outcome (b.cache.entryAt (b.key job.maker job.classname)).dirty } :=
        jobs ▸ List.getElem?_set_self hopen.lt_length
      refine renewed_of_finish ((entries k).trans (if_pos hk)) ?_
      refine (h.compiling j ((hreg k j).2 hopen)).symm.imp_right fun hlater => ?_
      exact ⟨j, _, ⟨hlater, _, hdone, (key_of_setups hsetups ..).trans hk.symm, .inr trivial⟩,
        jobResult?_eq_iff.2 ⟨_, hdone, rfl⟩⟩
    · exact hsame ((entries k).trans (if_neg hk))

/-! ## A forced request until its answer -/

/-- How far a forced request is, of which `again` says whether it has had to ask again. -/
inductive Follows (b : Build) (again : Prop) (n : Nat) (k : Cache.Key) : CompileProgress → Prop
  | asks : Follows b again n k (.asking true)
  | asksAgain (asked : again) (renewed : b.Renewed n k) : Follows b again n k (.asking false)
  | waits (j : Nat) (renewed : b.Renewed n k) (later : b.IsLater again n k j ∨ b.Marked k j) :
      Follows b again n k (.waiting j)
  | answered (outcome : CompileOutcome) (gave : b.Gave again n k outcome) :
      Follows b again n k (.done outcome)

theorem Follows.mono {again' : Prop} {p : CompileProgress} (h : b.Follows again n k p)
    (himp : again → again') : b.Follows again' n k p := by
  cases h with
  | asks => exact .asks
  | asksAgain asked renewed => exact .asksAgain (himp asked) renewed
  | waits j renewed later => exact .waits j renewed (later.imp_left (·.mono himp))
  | answered outcome gave => exact .answered outcome (gave.mono himp)

theorem Follows.turn {p : CompileProgress} (hreg : Registered b) (hn : n ≤ b.jobs.length)
    (h : b.Follows again n k p) (hturn : JobTurn b b' own) (hsetups : b'.setups = b.setups) :
    b'.Follows again n k p := by
  cases h with
  | asks => exact .asks
  | asksAgain asked renewed => exact .asksAgain asked (renewed.turn hreg hn hturn hsetups)
  | waits j renewed later =>
    refine .waits j (renewed.turn hreg hn hturn hsetups) ?_
    exact later.imp (·.turn hturn hsetups) (·.turn hreg hturn hsetups)
  | answered outcome gave => exact .answered outcome (gave.turn hturn hsetups)

def asksAgain (b : Build) (t : CompileThread) : Bool :=
  match t.progress with
  | .waiting j => (b.jobResult? j).any (·.2)
  | _ => false

theorem stepCompile_forced (h : t.progress = .asking true) :
    (∃ j, (b.stepCompile t).2.progress = .waiting j) ∧
    ((b.cache.entryAt (b.key t.maker t.classname)).compiling.isSome = true →
      ((b.stepCompile t).1.cache.entryAt (b.key t.maker t.classname)).dirty = true) := by
  rw [stepCompile, h]
  dsimp only
  rw [lookup_key]
  obtain ⟨running, -, hfound⟩ | ⟨hidle, -, hfound⟩ | ⟨info, -, hforce, -⟩ :=
    (b.cache.entryAt (b.key t.maker t.classname)).lookup_cases true b.jobs.length
  · rw [hfound]
    refine ⟨⟨running, rfl⟩, fun _ => ?_⟩
    dsimp only
    rw [entryAt_put_key, if_pos rfl]
    exact Bool.or_true _
  · rw [hfound]
    refine ⟨⟨b.jobs.length, rfl⟩, fun hsome => ?_⟩
    rw [hidle] at hsome
    cases hsome
  · cases hforce

theorem exists_progress_stepCompile (b : Build) (t : CompileThread) :
    ∃ p, (b.stepCompile t).2 = { t with progress := p } := by
  rw [stepCompile]
  split
  · split <;> exact ⟨_, rfl⟩
  · split <;> exact ⟨_, rfl⟩
  · exact ⟨_, rfl⟩

theorem Follows.step_asking {force : Bool} (hreg : Registered b) (hn : n ≤ b.jobs.length)
    (hkey : b.key t.maker t.classname = k) (hasking : t.progress = .asking force)
    (h : force = true ∨ again ∧ b.Renewed n k) :
    (b.stepCompile t).1.Follows again n k (b.stepCompile t).2.progress := by
  have hturn := jobTurn_stepCompile b t
  have hsetups : (b.stepCompile t).1.setups = b.setups := setups_of_makers (makers_stepCompile b t)
  have hreg' := hreg.turn hturn hsetups
  have hcases := stepCompile_asking (b := b) hasking
  subst hkey
  obtain ⟨running, hrunning, hjobs, ht⟩ | ⟨-, hjobs, -, ht⟩ | ⟨info, hidle, hclean, hcached, -, ht⟩ :=
    hcases
  · -- it joins a compile, which it marks if it is forced
    have hopen := (hreg _ running).1 hrunning
    have hopen' : (b.stepCompile t).1.IsUnderway (b.key t.maker t.classname) running :=
      (isUnderway_congr hsetups (by rw [hjobs])).2 hopen
    rw [ht]
    obtain rfl | ⟨hagain, hrenewed⟩ := h
    · have hdirty := (stepCompile_forced (b := b) hasking).2 (by rw [hrunning]; rfl)
      refine .waits running ⟨fun _ _ => .inr hdirty, fun _ => .inl hdirty⟩ (.inr (.inl ⟨hopen', hdirty⟩))
    · refine .waits running (hrenewed.turn hreg hn hturn hsetups) ?_
      obtain hlater | hdirty := hrenewed.compiling running hrunning
      · exact .inl (hopen'.isLater hlater hagain)
      · have hmarked : b.Marked (b.key t.maker t.classname) running := .inl ⟨hopen, hdirty⟩
        exact .inr (hmarked.turn hreg hturn hsetups)
  · -- it begins a compile
    have hnew : (b.stepCompile t).1.jobs[b.jobs.length]? =
        some { maker := t.maker, classname := t.classname, force } := by
      rw [hjobs, List.getElem?_concat_length]
    have hkey' := key_of_setups hsetups t.maker t.classname
    have hcompiling := (hreg' _ _).2 ((isUnderway_iff_of_eq hnew).2 ⟨rfl, hkey'⟩)
    rw [ht]
    exact .waits _ (renewed_of_started hn hcompiling)
      (.inl ⟨hn, _, hnew, hkey', h.imp_right And.left⟩)
  · -- it is answered at once, which is not so if it is forced
    obtain rfl | ⟨hagain, hrenewed⟩ := h
    · obtain ⟨j, hwaiting⟩ := (stepCompile_forced (b := b) hasking).1
      rw [ht] at hwaiting
      cases hwaiting
    · rw [ht]
      obtain hdirty | hgave := hrenewed.idle hidle
      · rw [hclean] at hdirty
        cases hdirty
      · exact .answered _ (((hgave info hcached).turn hturn hsetups).mono fun _ => hagain)

theorem Follows.step (hreg : Registered b) (hn : n ≤ b.jobs.length)
    (hkey : b.key t.maker t.classname = k) (h : b.Follows again n k t.progress) :
    (b.stepCompile t).1.Follows (again ∨ b.asksAgain t = true) n k (b.stepCompile t).2.progress := by
  cases hprogress : t.progress with
  | asking force =>
    refine (Follows.step_asking hreg hn hkey hprogress ?_).mono .inl
    rw [hprogress] at h
    cases h with
    | asks => exact .inl rfl
    | asksAgain asked renewed => exact .inr ⟨asked, renewed⟩
  | waiting j =>
    rw [hprogress] at h
    cases h with
    | waits _ renewed later =>
      rw [stepCompile, hprogress]
      dsimp only
      cases hresult : b.jobResult? j with
      | none =>
        dsimp only
        rw [hprogress]
        exact .waits j renewed (later.imp_left (·.mono .inl))
      | some result =>
        obtain ⟨outcome, marked⟩ := result
        cases marked with
        | true => exact .asksAgain (.inr (by simp [Build.asksAgain, hprogress, hresult])) renewed
        | false =>
          refine .answered outcome ?_
          obtain hlater | ⟨hopen, -⟩ | ⟨outcome', hmarked⟩ := later
          · exact ⟨j, false, hlater.mono .inl, hresult⟩
          · rw [jobResult?_of_underway hopen] at hresult
            cases hresult
          · cases hresult.symm.trans hmarked
  | done outcome =>
    rw [hprogress] at h
    rw [stepCompile, hprogress]
    dsimp only
    rw [hprogress]
    exact h.mono .inl

namespace System

variable {s : System} {a : Action} {r : Nat} {schedule : List Action}

theorem requested_act (h : Requested s.build) (a : Action) : Requested (s.act a).build := by
  intro job' hmem r hbegun
  cases jobTurn_act s a with
  | kept jobs _ => exact h job' (jobs ▸ hmem) r hbegun
  | started i c force jobs _ _ =>
    rw [jobs] at hmem
    obtain hmem | hmem := List.mem_append.1 hmem
    · exact h job' hmem r hbegun
    · cases List.mem_singleton.1 hmem
      cases hbegun
  | begun j job r' found opened jobs _ its =>
    cases a with
    | job j' =>
      cases its
      have hclass := requested_stepJob h found jobs
      rw [jobs] at hmem
      obtain hmem | rfl := List.mem_or_eq_of_mem_set hmem
      · exact h job' hmem r hbegun
      · cases hbegun
        exact hclass
    | _ => cases its
  | ended j job outcome _ _ _ jobs _ =>
    rw [jobs] at hmem
    obtain hmem | rfl := List.mem_or_eq_of_mem_set hmem
    · exact h job' hmem r hbegun
    · cases hbegun

theorem requested_foldl_act (h : Requested s.build) (schedule : List Action) :
    Requested (schedule.foldl act s).build :=
  List.foldlRecOn (motive := fun s => Requested s.build) schedule act h
    fun _ h a _ => requested_act h a

/-- A turn ends a compile for a key that is not one of the first ones, and it has come to build
information in some way. -/
def Ends (n : Nat) (k : Cache.Key) (info : BuildInfo)
    (how : Build → CompileJob → Build → BuildInfo → Prop) (s : System) (a : Action) : Prop :=
  ∃ j job marked, a = .job j ∧ n ≤ j ∧ s.build.jobs[j]? = some job ∧ job.isDone = false ∧
    s.build.key job.maker job.classname = k ∧
    (s.act a).build.jobResult? j = some (.ok info, marked) ∧ how s.build job (s.act a).build info

def AsksAgain (r : Nat) (s : System) (a : Action) : Prop :=
  a = .compile r ∧ (s.compiles[r]?).any s.build.asksAgain = true

theorem happened_of_done {marked : Bool} (hj : s.build.jobs.length ≤ j) (schedule : List Action)
    (hjob : (schedule.foldl act s).build.jobs[j]? = some job)
    (hdone : job.progress = .done outcome marked) :
    Happened act s schedule fun u a => a = .job j ∧ u.build.Opened j job ∧
      (u.act a).build.jobs[j]? = some job := by
  induction schedule using List.reverseRecOn with
  | nil =>
    rw [List.foldl_nil, List.getElem?_eq_none hj] at hjob
    cases hjob
  | append_singleton schedule a ih =>
    rw [List.foldl_append, List.foldl_cons, List.foldl_nil] at hjob
    obtain hbefore | ⟨its, hopen⟩ := done_turn (jobTurn_act _ a) hjob hdone
    · exact (ih hbefore).append [a]
    · cases a with
      | job j' =>
        cases its
        exact .last ⟨rfl, hopen, hjob⟩
      | _ => cases its

theorem length_jobs_foldl_act (s : System) (schedule : List Action) :
    s.build.jobs.length ≤ (schedule.foldl act s).build.jobs.length :=
  List.foldlRecOn (motive := fun u => s.build.jobs.length ≤ u.build.jobs.length) schedule act
    (Nat.le_refl _) fun u h a _ => Nat.le_trans h (length_jobs_turn (jobTurn_act u a))

theorem exists_follows (hreg : Registered s.build)
    (ht : s.compiles[r]? = some { t with progress := .asking true }) (schedule : List Action) :
    ∃ p, (schedule.foldl act s).compiles[r]? = some { t with progress := p } ∧
      (schedule.foldl act s).build.Follows (Happened act s schedule (AsksAgain r)) s.build.jobs.length
        (s.build.key t.maker t.classname) p := by
  induction schedule using List.reverseRecOn with
  | nil => exact ⟨_, ht, .asks⟩
  | append_singleton schedule a ih =>
    obtain ⟨p, ht, hfollows⟩ := ih
    have hreg' := registered_foldl_act hreg schedule
    have hlength := length_jobs_foldl_act s schedule
    have hkey := key_of_setups (setups_foldl_act s schedule) t.maker t.classname
    have hearlier (h : Happened act s schedule (AsksAgain r)) := h.append [a]
    rw [List.foldl_append, List.foldl_cons, List.foldl_nil]
    obtain ⟨rfl, hbuild, ht'⟩ | ht' := compiles_act ht a
    · obtain ⟨p', hp'⟩ :=
        exists_progress_stepCompile (schedule.foldl act s).build { t with progress := p }
      have hstep := Follows.step (t := { t with progress := p }) hreg' hlength hkey hfollows
      rw [hp'] at ht' hstep
      refine ⟨p', ht', ?_⟩
      rw [hbuild]
      refine hstep.mono fun hagain => hagain.elim hearlier fun hnow => .last ⟨rfl, ?_⟩
      rw [ht]
      exact hnow
    · refine ⟨p, ht', ?_⟩
      exact (hfollows.turn hreg' hlength (jobTurn_act _ a) (setups_act _ a)).mono hearlier

theorem ends_of_gave (hrequested : Requested s.build) (schedule : List Action)
    (hgave : (schedule.foldl act s).build.Gave again s.build.jobs.length k (.ok info)) :
    Happened act s schedule (Ends s.build.jobs.length k info Performs) ∨
      again ∧ Happened act s schedule (Ends s.build.jobs.length k info Rereads) := by
  obtain ⟨j, marked, ⟨hj, job, hjob, hk, hwhy⟩, hresult⟩ := hgave
  obtain ⟨job', hjob', hdone⟩ := jobResult?_eq_iff.1 hresult
  cases hjob.symm.trans hjob'
  obtain ⟨maker, classname, force, _⟩ := job
  cases hdone
  obtain ⟨before, a, after, heq, rfl, ⟨progress, hfound, hopen⟩, hended⟩ :=
    happened_of_done hj schedule hjob rfl
  have hk' : (before.foldl act s).build.key maker classname = k := by
    rw [← hk, key_of_setups (setups_foldl_act s schedule), key_of_setups (setups_foldl_act s before)]
  have hclass := requested_foldl_act hrequested before _ (List.mem_of_getElem? hfound)
  have hresult' : ((before.foldl act s).act (.job j)).build.jobResult? j = some (.ok info, marked) :=
    jobResult?_eq_iff.2 ⟨_, hended, rfl⟩
  have hends {how : Build → CompileJob → Build → BuildInfo → Prop}
      (h : how (before.foldl act s).build { maker, classname, force, progress }
        ((before.foldl act s).act (.job j)).build info) :
      Happened act s schedule (Ends s.build.jobs.length k info how) :=
    ⟨before, _, after, heq, j, _, marked, rfl, hj, hfound, hopen, hk', hresult', h⟩
  obtain hsame | ⟨r, -, hbegun⟩ | ⟨outcome, again', hconcludes, hhow⟩ := stepJob_origin hfound hclass
  · cases hsame.symm.trans hended
    cases hopen
  · cases hbegun.symm.trans hended
  · cases hconcludes.symm.trans hended
    obtain hperforms | hrereads := hhow info rfl
    · exact .inl (hends hperforms)
    · right
      refine ⟨hwhy.resolve_left fun hforce => ?_, hends hrereads⟩
      cases hforce.symm.trans hrereads.unforced

def Reached (s : System) : Prop :=
  ∃ files backend metadata classes makers, ∃ schedule : List Action,
    s = schedule.foldl act (start files backend metadata classes makers)

theorem Reached.registered (h : s.Reached) : Registered s.build := by
  obtain ⟨files, backend, metadata, classes, makers, schedule, rfl⟩ := h
  exact registered_foldl_act (registered_start files backend metadata classes makers) schedule

theorem Reached.requested (h : s.Reached) : Requested s.build := by
  obtain ⟨files, backend, metadata, classes, makers, schedule, rfl⟩ := h
  refine requested_foldl_act ?_ schedule
  rintro job ⟨⟩

/-- A forced request that is answered with build information has it from a compile that began after the
request was made. That compile has asked the backend, or else the request had to ask again, and the
compile has found the build information where an earlier one left it. -/
theorem forced_performed (hs : s.Reached) {i : Nat} {c : String} {after : List Action}
    (h : ((after.foldl act (s.act (.askCompile i c true))).compiles[s.compiles.length]?).bind
      CompileThread.info? = some info) :
    Happened act (s.act (.askCompile i c true)) after
      (Ends s.build.jobs.length (s.build.key i c) info Performs) ∨
    Happened act (s.act (.askCompile i c true)) after (AsksAgain s.compiles.length) ∧
      Happened act (s.act (.askCompile i c true)) after
        (Ends s.build.jobs.length (s.build.key i c) info Rereads) := by
  have ht : (s.act (.askCompile i c true)).compiles[s.compiles.length]? =
      some (compileThread i true c) := List.getElem?_concat_length
  have hreg := registered_act hs.registered (.askCompile i c true)
  obtain ⟨p, ht', hfollows⟩ := exists_follows (t := compileThread i true c) hreg ht after
  rw [ht', Option.bind_some, CompileThread.info?_eq_some] at h
  cases h
  cases hfollows with
  | answered _ gave =>
    exact ends_of_gave (requested_act hs.requested (.askCompile i c true)) after gave

def held : System := [.askCompile 0 "a.A" false, .compile 0, .job 0, .compile 0].foldl act plain

/-- A class that is held in the cache is compiled again. -/
theorem forced_performed_held :
    held.Reached ∧ ∃ info,
      (([.compile 1, .job 1, .compile 1].foldl act
        (held.act (.askCompile 0 "a.A" true))).compiles[held.compiles.length]?).bind
          CompileThread.info? = some info ∧
      Happened act (held.act (.askCompile 0 "a.A" true)) [.compile 1, .job 1, .compile 1]
        (Ends held.build.jobs.length (held.build.key 0 "a.A") info Performs) := by
  obtain ⟨hanswered, hlength, hfirst, hlast⟩ :
      ((([.compile 1, .job 1, .compile 1].foldl act
        (held.act (.askCompile 0 "a.A" true))).compiles[held.compiles.length]?).bind
          CompileThread.info?).isSome = true ∧
      held.compiles.length = 1 ∧
      ((held.act (.askCompile 0 "a.A" true)).compiles[1]?).any
        (held.act (.askCompile 0 "a.A" true)).build.asksAgain = false ∧
      let u := ((held.act (.askCompile 0 "a.A" true)).act (.compile 1)).act (.job 1)
      (u.compiles[1]?).any u.build.asksAgain = false := by
    decide +kernel
  have hs : held.Reached := ⟨_, _, _, _, _, _, rfl⟩
  obtain ⟨info, hinfo⟩ := Option.isSome_iff_exists.1 hanswered
  refine ⟨hs, info, hinfo, (forced_performed hs hinfo).resolve_right ?_⟩
  rintro ⟨hagain, -⟩
  rw [hlength] at hagain
  simp only [happened_cons, happened_nil, or_false] at hagain
  obtain ⟨-, hnow⟩ | ⟨hjob, -⟩ | ⟨-, hnow⟩ := hagain
  · rw [hfirst] at hnow
    cases hnow
  · cases hjob
  · rw [hlast] at hnow
    cases hnow

def compiling : System :=
  [.askCompile 0 "a.A" true, .compile 0, .job 0].foldl act
    { plain with build := { plain.build with backend := { plain.build.backend with pauses := true } } }

/-- A second forced request joins the compile, asks again, and gets what the compile has left. -/
def joined : List Action := [.compile 1, .job 0, .compile 1, .compile 1, .job 1, .compile 1]

/-- The request that has joined a compile is answered though no compile has asked the backend since. -/
theorem forced_performed_joined :
    compiling.Reached ∧ ∃ info,
      ((joined.foldl act
        (compiling.act (.askCompile 0 "a.A" true))).compiles[compiling.compiles.length]?).bind
          CompileThread.info? = some info ∧
      ¬ Happened act (compiling.act (.askCompile 0 "a.A" true)) joined
        (Ends compiling.build.jobs.length (compiling.build.key 0 "a.A") info Performs) := by
  obtain ⟨hanswered, hlength, hreread⟩ :
      (((joined.foldl act
        (compiling.act (.askCompile 0 "a.A" true))).compiles[compiling.compiles.length]?).bind
          CompileThread.info?).isSome = true ∧
      compiling.build.jobs.length = 1 ∧
      (([.compile 1, .job 0, .compile 1, .compile 1, .job 1].foldl act
        (compiling.act (.askCompile 0 "a.A" true))).build.events.getLast?).any
          Event.isCompile = false := by
    decide +kernel
  obtain ⟨info, hinfo⟩ := Option.isSome_iff_exists.1 hanswered
  refine ⟨⟨_, _, _, _, _, _, rfl⟩, info, hinfo, fun hends => ?_⟩
  rw [hlength] at hends
  simp only [joined, happened_cons, happened_nil, or_false] at hends
  simp only [List.foldl_cons, List.foldl_nil] at hreread
  obtain ⟨j, _, _, hturn, -⟩ | ⟨j, _, _, hturn, hlater, -⟩ | ⟨j, _, _, hturn, -⟩ |
    ⟨j, _, _, hturn, -⟩ | ⟨j, _, _, hturn, -, -, -, -, -, hperforms⟩ | ⟨j, _, _, hturn, -⟩ := hends
  · cases hturn
  · cases hturn
    cases hlater
  · cases hturn
  · cases hturn
  · obtain ⟨target, hreport⟩ := hperforms.reported
    rw [hreport] at hreread
    cases hreread
  · cases hturn

end System

end Build

end ClassForge
