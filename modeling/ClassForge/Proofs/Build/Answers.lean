import ClassForge.Proofs.Build.Jobs
import ClassForge.Proofs.Build.Waves

/-!
# Answers to requests

A request to compile a class is not answered by what the cache held before the class changed, but only
after a compile that has begun since. Where no compile is under way, requests can be answered one after
another.
-/

namespace ClassForge

/-! ## What an entry serves -/

namespace CacheEntry

/-- An entry from which only what is `good` is taken, or what the `n`-th compile or a later one gives. -/
structure Serves (n : Nat) (good : BuildInfo → Prop) (e : CacheEntry) : Prop where
  compiling : ∀ j, e.compiling = some j → n ≤ j ∨ e.dirty = true
  idle : e.compiling = none → e.dirty = true ∨ ∀ info, e.cached = some info → good info

theorem Serves.weakens {e e' : CacheEntry} {n : Nat} {good good' : BuildInfo → Prop}
    (h : e.Serves n good) (hw : e.Weakens e') (hgood : ∀ info, good info → good' info) :
    e'.Serves n good' where
  compiling j hj := by
    rw [hw.compiling] at hj
    refine (h.compiling j hj).imp_right fun hdirty => ?_
    obtain hdirty | ⟨hnone, -⟩ := hw.dirty hdirty
    · exact hdirty
    · rw [hj] at hnone
      cases hnone
  idle hnone := by
    rw [hw.compiling] at hnone
    obtain hdirty | hcached := h.idle hnone
    · refine (hw.dirty hdirty).imp_right ?_
      rintro ⟨-, hcached⟩ info hinfo
      rw [hcached] at hinfo
      cases hinfo
    · exact .inr fun info hinfo => hgood info (hcached info (hw.cached info hinfo))

abbrev IsOutdated (n : Nat) (e : CacheEntry) : Prop := e.Serves n fun _ => False

end CacheEntry

def CompileThread.isAnswered (t : CompileThread) : Bool :=
  match t.progress with
  | .done _ => true
  | _ => false

namespace Build

variable {b b' : Build} {i j n : Nat} {c : String} {k : Cache.Key} {t : CompileThread}
  {own : Option Nat}

def EndsLater (n : Nat) (k : Cache.Key) (b b' : Build) (own : Option Nat) : Prop :=
  ∃ j job', own = some j ∧ n ≤ j ∧ b.IsUnderway k j ∧ b'.jobs[j]? = some job' ∧ job'.isDone = true

theorem outdated_turn (hreg : Registered b) (hn : n ≤ b.jobs.length)
    (h : (b.cache.entryAt k).IsOutdated n) (hturn : JobTurn b b' own) :
    EndsLater n k b b' own ∨ (b'.cache.entryAt k).IsOutdated n := by
  cases hturn with
  | kept jobs entries => exact .inr (h.weakens (entries k) fun _ => id)
  | started i c force jobs idle entries =>
    right
    rw [entries]
    split
    · refine ⟨fun j hj => ?_, fun hnone => ?_⟩
      · cases hj
        exact .inl hn
      · cases hnone
    · exact h
  | begun j job r found opened jobs cache => exact .inr (cache ▸ h)
  | ended j job outcome its found opened jobs entries =>
    by_cases hk : k = b.key job.maker job.classname
    · have hopen : b.IsUnderway k j := ⟨job, found, opened, hk.symm⟩
      obtain hlater | hdirty := h.compiling j ((hreg k j).2 hopen)
      · left
        refine ⟨j, _, its, hlater, hopen, jobs ▸ List.getElem?_set_self hopen.lt_length, ?_⟩
        rfl
      · right
        rw [entries, if_pos hk]
        refine ⟨fun j hj => ?_, fun _ => .inl hdirty⟩
        cases hj
    · right
      rw [entries, if_neg hk]
      exact h

theorem jobResult?_eq_iff {outcome : CompileOutcome} {again : Bool} :
    b.jobResult? j = some (outcome, again) ↔
      ∃ job, b.jobs[j]? = some job ∧ job.progress = .done outcome again := by
  rw [jobResult?]
  split
  · next hjob => simp [hjob]
  · next hnone =>
    refine iff_of_false (by rintro ⟨⟩) ?_
    rintro ⟨job, hjob, hprogress⟩
    obtain ⟨maker, classname, force, progress⟩ := job
    cases hprogress
    exact hnone _ _ _ _ _ hjob

theorem jobResult?_of_underway (h : b.IsUnderway k j) : b.jobResult? j = none := by
  obtain ⟨job, hjob, hopen, -⟩ := h
  cases hresult : b.jobResult? j with
  | none => rfl
  | some result =>
    obtain ⟨job', hjob', hdone⟩ := jobResult?_eq_iff.1 hresult
    cases hjob.symm.trans hjob'
    simp [CompileJob.isDone, hdone] at hopen

theorem jobResult?_turn {result : CompileOutcome × Bool} (h : b.jobResult? j = some result)
    (hturn : JobTurn b b' own) : b'.jobResult? j = some result := by
  obtain ⟨job, hjob, hdone⟩ := jobResult?_eq_iff.1 h
  have hlt : j < b.jobs.length := (List.getElem?_eq_some_iff.1 hjob).1
  have hother {j₀ : Nat} {job₀ : CompileJob} (found : b.jobs[j₀]? = some job₀)
      (opened : job₀.isDone = false) : j₀ ≠ j := by
    rintro rfl
    cases hjob.symm.trans found
    simp [CompileJob.isDone, hdone] at opened
  refine jobResult?_eq_iff.2 ⟨job, ?_, hdone⟩
  cases hturn with
  | kept jobs _ => rw [jobs, hjob]
  | started _ _ _ jobs _ _ => rw [jobs, List.getElem?_append_left hlt, hjob]
  | begun _ _ _ found opened jobs _ => rw [jobs, List.getElem?_set_ne (hother found opened), hjob]
  | ended _ _ _ _ found opened jobs _ => rw [jobs, List.getElem?_set_ne (hother found opened), hjob]

/-- A request waits for a compile of its key that has not ended, or after which it asks again. -/
def Awaits (b : Build) (k : Cache.Key) (j : Nat) : Prop :=
  b.IsUnderway k j ∨ ∃ outcome, b.jobResult? j = some (outcome, true)

theorem awaits_turn (hreg : Registered b) (hout : (b.cache.entryAt k).IsOutdated n)
    (h : b.Awaits k j) (hturn : JobTurn b b' own) (hsetups : b'.setups = b.setups) :
    EndsLater n k b b' own ∨ b'.Awaits k j := by
  obtain hopen | ⟨outcome, hagain⟩ := h
  · have hlt := hopen.lt_length
    cases hturn with
    | kept jobs _ =>
      exact .inr (.inl ((isUnderway_congr hsetups (by rw [jobs])).2 hopen))
    | started _ _ _ jobs _ _ =>
      have hsame : b'.jobs[j]? = b.jobs[j]? := by rw [jobs, List.getElem?_append_left hlt]
      exact .inr (.inl ((isUnderway_congr hsetups hsame).2 hopen))
    | begun j₀ job r found opened jobs _ =>
      right
      left
      by_cases hj : j = j₀
      · obtain ⟨job', hjob', -, hk⟩ := hopen
        cases (hj ▸ found).symm.trans hjob'
        refine ⟨{ job with progress := .begun r }, ?_, rfl, (key_of_setups hsetups ..).trans hk⟩
        rw [jobs, ← hj, List.getElem?_set_self hlt]
      · exact (isUnderway_congr hsetups (by rw [jobs, List.getElem?_set_ne (Ne.symm hj)])).2 hopen
    | ended j₀ job outcome its found opened jobs _ =>
      by_cases hj : j = j₀
      · obtain ⟨job', hjob', hopened, hk⟩ := hopen
        cases (hj ▸ found).symm.trans hjob'
        have hdone : b'.jobs[j]? = some { job with
            progress := .done outcome (b.cache.entryAt (b.key job.maker job.classname)).dirty } := by
          rw [jobs, ← hj, List.getElem?_set_self hlt]
        obtain hlater | hdirty := hout.compiling j ((hreg k j).2 ⟨job, hjob', hopened, hk⟩)
        · exact .inl ⟨j, _, hj ▸ its, hlater, ⟨job, hjob', hopened, hk⟩, hdone, rfl⟩
        · right
          right
          refine ⟨outcome, jobResult?_eq_iff.2 ⟨_, hdone, ?_⟩⟩
          rw [hk, hdirty]
      · exact .inr (.inl
          ((isUnderway_congr hsetups (by rw [jobs, List.getElem?_set_ne (Ne.symm hj)])).2 hopen))
  · exact .inr (.inr ⟨outcome, jobResult?_turn hagain hturn⟩)

structure Pending (b : Build) (n : Nat) (k : Cache.Key) (t : CompileThread) : Prop where
  registered : Registered b
  later : n ≤ b.jobs.length
  outdated : (b.cache.entryAt k).IsOutdated n
  key : b.key t.maker t.classname = k
  progress : (∃ force, t.progress = .asking force) ∨ ∃ j, t.progress = .waiting j ∧ b.Awaits k j

theorem length_jobs_turn (hturn : JobTurn b b' own) : b.jobs.length ≤ b'.jobs.length := by
  cases hturn with
  | kept jobs _ => simp [jobs]
  | started _ _ _ jobs _ _ => simp [jobs]
  | begun _ _ _ _ _ jobs _ => simp [jobs]
  | ended _ _ _ _ _ _ jobs _ => simp [jobs]

theorem Pending.turn (h : b.Pending n k t) (hturn : JobTurn b b' own) (hsetups : b'.setups = b.setups) :
    EndsLater n k b b' own ∨ b'.Pending n k t := by
  obtain hends | hout := outdated_turn h.registered h.later h.outdated hturn
  · exact .inl hends
  have hpending (hprogress : (∃ force, t.progress = .asking force) ∨
      ∃ j, t.progress = .waiting j ∧ b'.Awaits k j) : b'.Pending n k t :=
    ⟨h.registered.turn hturn hsetups, Nat.le_trans h.later (length_jobs_turn hturn), hout,
      (key_of_setups hsetups ..).trans h.key, hprogress⟩
  obtain hasking | ⟨j, hwaiting, hawaits⟩ := h.progress
  · exact .inr (hpending (.inl hasking))
  · obtain hends | hawaits := awaits_turn h.registered h.outdated hawaits hturn hsetups
    · exact .inl hends
    · exact .inr (hpending (.inr ⟨j, hwaiting, hawaits⟩))

theorem Pending.step (h : b.Pending n k t) : (b.stepCompile t).1.Pending n k (b.stepCompile t).2 := by
  have hturn := jobTurn_stepCompile b t
  have hsetups : (b.stepCompile t).1.setups = b.setups := setups_of_makers (makers_stepCompile b t)
  have hout : ((b.stepCompile t).1.cache.entryAt k).IsOutdated n := by
    obtain ⟨j, job', its, -⟩ | hout := outdated_turn h.registered h.later h.outdated hturn
    · cases its
    · exact hout
  have hpending {progress : CompileProgress} (hprogress : (∃ force, progress = .asking force) ∨
      ∃ j, progress = .waiting j ∧ (b.stepCompile t).1.Awaits k j) :
      (b.stepCompile t).1.Pending n k { t with progress } :=
    ⟨h.registered.turn hturn hsetups, Nat.le_trans h.later (length_jobs_turn hturn), hout,
      (key_of_setups hsetups ..).trans h.key, hprogress⟩
  obtain ⟨force, hasking⟩ | ⟨j, hwaiting, hawaits⟩ := h.progress
  · have hcases := stepCompile_asking (b := b) hasking
    rw [h.key] at hcases
    obtain ⟨running, hrunning, hjobs, ht⟩ | ⟨-, hjobs, -, ht⟩ | ⟨info, hidle, hclean, hcached, -⟩ := hcases
    · rw [ht]
      have hopen := (h.registered k running).1 hrunning
      exact hpending (.inr ⟨running, rfl, .inl ((isUnderway_congr hsetups (by rw [hjobs])).2 hopen)⟩)
    · rw [ht]
      have hnew : (b.stepCompile t).1.jobs[b.jobs.length]? =
          some { maker := t.maker, classname := t.classname, force } := by
        rw [hjobs, List.getElem?_concat_length]
      have hopen : (b.stepCompile t).1.IsUnderway k b.jobs.length :=
        (isUnderway_iff_of_eq hnew).2 ⟨rfl, (key_of_setups hsetups t.maker t.classname).trans h.key⟩
      exact hpending (.inr ⟨b.jobs.length, rfl, .inl hopen⟩)
    · obtain hdirty | hnone := h.outdated.idle hidle
      · rw [hclean] at hdirty
        cases hdirty
      · exact (hnone info hcached).elim
  · obtain hopen | ⟨outcome, hagain⟩ := hawaits
    · have hsame : b.stepCompile t = (b, t) := by
        rw [stepCompile, hwaiting]
        dsimp only
        rw [jobResult?_of_underway hopen]
      rw [hsame]
      exact h
    · have hasks : b.stepCompile t = (b, { t with progress := .asking false }) := by
        rw [stepCompile, hwaiting]
        dsimp only
        rw [hagain]
      rw [hasks]
      exact ⟨h.registered, h.later, h.outdated, h.key, .inl ⟨false, rfl⟩⟩

/-! ## Compiles come to their end -/

theorem IsUnderway.pos (h : b.IsUnderway k j) : 0 < b.underway := by
  obtain ⟨job, hjob, hopen, -⟩ := h
  exact List.countP_pos_iff.2 ⟨job, List.mem_of_getElem? hjob, by simp [hopen]⟩

theorem jobs_stepJob_twice {job : CompileJob} {m : Maker} (hjob : b.jobs[j]? = some job)
    (hopen : job.isDone = false) (hm : b.makers[job.maker]? = some m) :
    ∃ outcome, ((b.stepJob j).stepJob j).jobs = b.jobs.set j { job with
      progress := .done outcome (b.cache.entryAt (b.key job.maker job.classname)).dirty } := by
  have hlt : j < b.jobs.length := (List.getElem?_eq_some_iff.1 hjob).1
  have hsetups := setups_stepJob b j
  obtain ⟨m', hm', -⟩ := exists_maker_of_setups hsetups hm
  obtain ⟨-, hstuck⟩ | ⟨job', hjob', -, ⟨r, -, hcache, hjobs⟩ | ⟨outcome, hjobs, -⟩⟩ :=
    b.stepJob_effect j
  · obtain hdone | hnone := hstuck job hjob
    · rw [hopen] at hdone
      cases hdone
    · rw [hm] at hnone
      cases hnone
  · -- it has begun, so it ends with the second step
    cases hjob.symm.trans hjob'
    have hbegun : (b.stepJob j).jobs[j]? = some { job with progress := .begun r } := by
      rw [hjobs, List.getElem?_set_self hlt]
    obtain ⟨-, hstuck⟩ | ⟨job₁, hjob₁, -, ⟨r₁, hfresh, -⟩ | ⟨outcome, hended, -⟩⟩ :=
      (b.stepJob j).stepJob_effect j
    · obtain hdone | hnone := hstuck _ hbegun
      · cases hdone
      · rw [hm'] at hnone
        cases hnone
    · cases hbegun.symm.trans hjob₁
      cases hfresh
    · cases hbegun.symm.trans hjob₁
      refine ⟨outcome, ?_⟩
      rw [hended, hjobs, List.set_set, hcache, key_of_setups hsetups]
  · -- it has ended, and the second step finds nothing to do
    cases hjob.symm.trans hjob'
    have hended : (b.stepJob j).jobs[j]? = some { job with
        progress := .done outcome (b.cache.entryAt (b.key job.maker job.classname)).dirty } := by
      rw [hjobs, List.getElem?_set_self hlt]
    refine ⟨outcome, ?_⟩
    obtain ⟨hkept, -⟩ | ⟨job₁, hjob₁, hopen₁, -⟩ := (b.stepJob j).stepJob_effect j
    · rw [hkept, hjobs]
    · cases hended.symm.trans hjob₁
      cases hopen₁

/-- A compile that a request has begun ends in two steps, and the request need not ask again. -/
theorem exists_jobResult?_of_started {m : Maker} {force : Bool} (hm : b.makers[t.maker]? = some m)
    (hjobs : (b.stepCompile t).1.jobs =
      b.jobs ++ [{ maker := t.maker, classname := t.classname, force }])
    (hclean : ((b.stepCompile t).1.cache.entryAt (b.key t.maker t.classname)).dirty = false) :
    ∃ outcome, (((b.stepCompile t).1.stepJob b.jobs.length).stepJob b.jobs.length).jobResult?
        b.jobs.length = some (outcome, false) ∧
      (((b.stepCompile t).1.stepJob b.jobs.length).stepJob b.jobs.length).underway = b.underway := by
  have hsetups : (b.stepCompile t).1.setups = b.setups := setups_of_makers (makers_stepCompile b t)
  have hnew : (b.stepCompile t).1.jobs[b.jobs.length]? =
      some { maker := t.maker, classname := t.classname, force } := by
    rw [hjobs, List.getElem?_concat_length]
  have hunderway : (b.stepCompile t).1.underway = b.underway + 1 := by
    simp [underway, hjobs, CompileJob.isDone]
  obtain ⟨m', hm', -⟩ := exists_maker_of_setups hsetups hm
  obtain ⟨outcome, hended⟩ := jobs_stepJob_twice hnew rfl hm'
  dsimp only at hended
  rw [key_of_setups hsetups, hclean] at hended
  have hless := underway_set hnew rfl hended
  have hget := congrArg (·[b.jobs.length]?) hended
  rw [List.getElem?_set_self (List.getElem?_eq_some_iff.1 hnew).1] at hget
  exact ⟨outcome, jobResult?_eq_iff.2 ⟨_, hget, rfl⟩, Nat.succ.inj (hless.trans hunderway)⟩

def Action.IsCompiling (a : Action) : Prop := ∃ k, a = .compile k ∨ a = .job k

namespace System

variable {s : System} {a : Action} {r : Nat} {m : Maker}

def CompilesLater (n : Nat) (k : Cache.Key) (s : System) (a : Action) : Prop :=
  ∃ j, a = .job j ∧ n ≤ j ∧ s.build.IsUnderway k j ∧ s.Completes j k.2

theorem compilesLater_of_endsLater (h : EndsLater n k s.build (s.act a).build a.job?) :
    CompilesLater n k s a := by
  obtain ⟨j, job', own, hlater, hopen, hjob', hdone⟩ := h
  cases a with
  | job j' =>
    cases own
    refine ⟨j, rfl, hlater, hopen, ?_⟩
    obtain ⟨job, hjob, hopened, hk⟩ := hopen
    exact ⟨job, job', hjob, hopened, congrArg Prod.snd hk, hjob', hdone⟩
  | _ => cases own

theorem compiles_act (ht : s.compiles[r]? = some t) (a : Action) :
    (a = .compile r ∧ (s.act a).build = (s.build.stepCompile t).1 ∧
      (s.act a).compiles[r]? = some (s.build.stepCompile t).2) ∨
    (s.act a).compiles[r]? = some t := by
  have hr : r < s.compiles.length := (List.getElem?_eq_some_iff.1 ht).1
  cases a with
  | askCompile maker classname force => exact .inr (by rw [act, List.getElem?_append_left hr, ht])
  | compile k =>
    by_cases hk : k = r
    · cases hk
      rw [act, ht]
      exact .inl ⟨rfl, rfl, List.getElem?_set_self hr⟩
    · right
      rw [act]
      split
      · exact ht
      · exact (List.getElem?_set_ne hk).trans ht
  | compileIn r k =>
    right
    rw [act]
    split
    · split <;> exact ht
    · exact ht
  | make k =>
    right
    rw [act]
    split <;> exact ht
  | askMake | job | run | change | autoMake | edit => exact .inr ht

theorem pending_act (ht : s.compiles[r]? = some t) (h : s.build.Pending n k t) (a : Action) :
    CompilesLater n k s a ∨
      ∃ t', (s.act a).compiles[r]? = some t' ∧ (s.act a).build.Pending n k t' := by
  obtain ⟨-, hbuild, ht'⟩ | ht' := compiles_act ht a
  · right
    refine ⟨_, ht', ?_⟩
    rw [hbuild]
    exact h.step
  · obtain hends | hpending := h.turn (jobTurn_act s a) (setups_act s a)
    · exact .inl (compilesLater_of_endsLater hends)
    · exact .inr ⟨t, ht', hpending⟩

/-! ## Requests come to their answers -/

theorem exists_answered (hreg : Registered s.build) (hidle : s.build.underway = 0)
    (hm : s.build.makers[i]? = some m) {force : Bool}
    (ht : s.compiles[r]? = some (compileThread i force c)) :
    ∃ later : List Action, (∀ a ∈ later, a.IsCompiling) ∧ (later.foldl act s).build.underway = 0 ∧
      ∃ outcome, (later.foldl act s).compiles =
        s.compiles.set r { compileThread i force c with progress := .done outcome } := by
  have hr : r < s.compiles.length := (List.getElem?_eq_some_iff.1 ht).1
  have hact : s.act (.compile r) =
      { s with
        build := (s.build.stepCompile (compileThread i force c)).1
        compiles := s.compiles.set r (s.build.stepCompile (compileThread i force c)).2 } := by
    rw [act, ht]
  obtain ⟨running, hrunning, -⟩ | ⟨-, hjobs, hclean, hwaits⟩ | ⟨info, -, -, -, hjobs, hdone⟩ :=
    stepCompile_asking (b := s.build) (t := compileThread i force c) rfl
  · have hpos := ((hreg _ running).1 hrunning).pos
    omega
  · -- a compile begins, ends in two turns, and the request finds its result
    let n := s.build.jobs.length
    let b := ((s.build.stepCompile (compileThread i force c)).1.stepJob n).stepJob n
    obtain ⟨outcome, hresult, hunderway⟩ := exists_jobResult?_of_started hm hjobs hclean
    have hstep : b.stepCompile { compileThread i force c with progress := .waiting n } =
        (b, { compileThread i force c with progress := .done outcome }) := by
      unfold stepCompile
      dsimp only
      rw [hresult]
    have hfold : [Action.compile r, .job n, .job n, .compile r].foldl act s =
        { s with
          build := b
          compiles := s.compiles.set r { compileThread i force c with progress := .done outcome } } := by
      rw [List.foldl_cons, hact, hwaits]
      simp only [List.foldl_cons, List.foldl_nil, act]
      rw [List.getElem?_set_self hr]
      dsimp only
      rw [hstep, List.set_set]
    refine ⟨[.compile r, .job n, .job n, .compile r], ?_, ?_, outcome, ?_⟩
    · simp [Action.IsCompiling]
    · rw [hfold]
      exact hunderway.trans hidle
    · rw [hfold]
  · refine ⟨[.compile r], ?_, ?_, .ok info, ?_⟩
    · intro a ha
      exact ⟨r, .inl (List.mem_singleton.1 ha)⟩
    · rw [List.foldl_cons, List.foldl_nil, hact]
      simp only [Build.underway, hjobs]
      exact hidle
    · rw [List.foldl_cons, List.foldl_nil, hact, hdone]

theorem exists_all_answered (makers : List Nat) {earlier : List CompileThread}
    (hreg : Registered s.build) (hidle : s.build.underway = 0)
    (hmakers : ∀ i ∈ makers, ∃ m, s.build.makers[i]? = some m)
    (hcompiles : s.compiles = earlier ++ makers.map fun i => compileThread i false c) :
    ∃ later : List Action, (∀ a ∈ later, a.IsCompiling) ∧ (later.foldl act s).build.underway = 0 ∧
      ∃ answered, (later.foldl act s).compiles = earlier ++ answered ∧
        answered.length = makers.length ∧ ∀ t ∈ answered, t.isAnswered = true := by
  induction makers generalizing s earlier with
  | nil =>
    refine ⟨[], ?_, hidle, [], hcompiles, rfl, ?_⟩
    · rintro a ⟨⟩
    · rintro t ⟨⟩
  | cons i makers ih =>
    obtain ⟨m, hm⟩ := hmakers i List.mem_cons_self
    have ht : s.compiles[earlier.length]? = some (compileThread i false c) := by
      rw [hcompiles, List.getElem?_append_right (Nat.le_refl _), Nat.sub_self]
      rfl
    obtain ⟨first, hfirst, hidle', outcome, hset⟩ := exists_answered hreg hidle hm ht
    let done : CompileThread := { compileThread i false c with progress := .done outcome }
    have hcompiles' : (first.foldl act s).compiles =
        (earlier ++ [done]) ++ makers.map fun i => compileThread i false c := by
      rw [hset, hcompiles]
      simp [done]
    have hmakers' : ∀ i ∈ makers, ∃ m, (first.foldl act s).build.makers[i]? = some m := by
      intro i hi
      obtain ⟨m, hm⟩ := hmakers i (List.mem_cons_of_mem _ hi)
      obtain ⟨m', hm', -⟩ := exists_maker_foldl_act hm first
      exact ⟨m', hm'⟩
    obtain ⟨rest, hrest, hidle'', answered, hanswered, hlength, hall⟩ :=
      ih (registered_foldl_act hreg first) hidle' hmakers' hcompiles'
    refine ⟨first ++ rest, ?_, ?_, done :: answered, ?_, congrArg Nat.succ hlength, ?_⟩
    · intro a ha
      exact (List.mem_append.1 ha).elim (hfirst a) (hrest a)
    · rw [List.foldl_append]
      exact hidle''
    · rw [List.foldl_append, hanswered]
      simp
    · intro t ht
      obtain rfl | ht := List.mem_cons.1 ht
      · rfl
      · exact hall t ht

end System

end Build

end ClassForge
