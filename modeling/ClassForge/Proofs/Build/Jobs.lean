import ClassForge.Proofs.Build.Setup
import ClassForge.Proofs.Compilation.Entries

/-!
# Compiles and the cache

A turn does one of four things to the compiles of a build and the entries of its cache: it begins a
compile, takes it on, ends it, or leaves the compiles alone. So the cache knows of exactly the compiles
that are under way.
-/

namespace ClassForge

namespace CacheEntry

variable {e e' : CacheEntry}

structure Weakens (e e' : CacheEntry) : Prop where
  compiling : e'.compiling = e.compiling
  dirty : e.dirty = true → e'.dirty = true ∨ e.compiling = none ∧ e'.cached = none
  cached : ∀ info, e'.cached = some info → e.cached = some info

theorem Weakens.refl (e : CacheEntry) : e.Weakens e := ⟨rfl, .inl, fun _ => id⟩

end CacheEntry

namespace Build

variable {b b' : Build} {i j : Nat} {c : String} {k : Cache.Key}

def key (b : Build) (i : Nat) (c : String) : Cache.Key := ((b.outputDir i).plain, c)

theorem outputDir_of_setups (h : b'.setups = b.setups) (i : Nat) : b'.outputDir i = b.outputDir i := by
  have hget (b : Build) : (b.makers[i]?).map (·.target.outputDir) =
      (b.setups[i]?).map (·.1.outputDir) := by
    rw [setups_getElem?, Option.map_map]
    rfl
  rw [outputDir, outputDir, hget, hget, h]

theorem key_of_setups (h : b'.setups = b.setups) (i : Nat) (c : String) : b'.key i c = b.key i c := by
  rw [key, key, outputDir_of_setups h]

theorem entryAt_put_key (b : Build) (i : Nat) (c : String) (e : CacheEntry) (k : Cache.Key) :
    (b.cache.put (b.outputDir i) c e).entryAt k = if k = b.key i c then e else b.cache.entryAt k :=
  Cache.entryAt_put ..

theorem lookup_key (b : Build) (i : Nat) (c : String) (force : Bool) (job : Nat) :
    b.cache.lookup (b.outputDir i) c force job =
      (((b.cache.entryAt (b.key i c)).lookup force job).1,
        b.cache.put (b.outputDir i) c ((b.cache.entryAt (b.key i c)).lookup force job).2) := rfl

inductive JobTurn (b b' : Build) (turn : Option Nat) : Prop
  | kept (jobs : b'.jobs = b.jobs)
      (entries : ∀ k, (b.cache.entryAt k).Weakens (b'.cache.entryAt k))
  | started (i : Nat) (c : String) (force : Bool)
      (jobs : b'.jobs = b.jobs ++ [{ maker := i, classname := c, force }])
      (idle : (b.cache.entryAt (b.key i c)).compiling = none)
      (entries : ∀ k, b'.cache.entryAt k = if k = b.key i c then
        { b.cache.entryAt k with compiling := some b.jobs.length, dirty := false }
        else b.cache.entryAt k)
  | begun (j : Nat) (job : CompileJob) (r : CompileRequest) (found : b.jobs[j]? = some job)
      (opened : job.isDone = false)
      (jobs : b'.jobs = b.jobs.set j { job with progress := .begun r }) (cache : b'.cache = b.cache)
      (its : turn = some j)
  | ended (j : Nat) (job : CompileJob) (outcome : CompileOutcome) (its : turn = some j)
      (found : b.jobs[j]? = some job) (opened : job.isDone = false)
      (jobs : b'.jobs = b.jobs.set j { job with
        progress := .done outcome (b.cache.entryAt (b.key job.maker job.classname)).dirty })
      (entries : ∀ k, b'.cache.entryAt k = if k = b.key job.maker job.classname then
        (b.cache.entryAt k).finish outcome else b.cache.entryAt k)

theorem JobTurn.of_same {turn : Option Nat} (hjobs : b'.jobs = b.jobs) (hcache : b'.cache = b.cache) :
    JobTurn b b' turn := by
  refine .kept hjobs fun k => ?_
  rw [hcache]
  exact .refl _

theorem JobTurn.congr {b'' : Build} {turn : Option Nat} (h : JobTurn b b' turn) (hjobs : b''.jobs = b'.jobs)
    (hcache : b''.cache = b'.cache) : JobTurn b b'' turn := by
  cases h with
  | kept jobs entries => exact .kept (hjobs.trans jobs) (hcache ▸ entries)
  | started i c force jobs idle entries =>
    exact .started i c force (hjobs.trans jobs) idle (hcache ▸ entries)
  | begun j job r found opened jobs cache its =>
    exact .begun j job r found opened (hjobs.trans jobs) (hcache.trans cache) its
  | ended j job outcome its found opened jobs entries =>
    exact .ended j job outcome its found opened (hjobs.trans jobs) (hcache ▸ entries)

theorem jobTurn_stepCompile (b : Build) (t : CompileThread) : JobTurn b (b.stepCompile t).1 none := by
  rw [stepCompile]
  split
  · next force _ =>
    rw [lookup_key]
    obtain ⟨running, hrunning, hfound⟩ | ⟨hidle, -, hfound⟩ | ⟨info, -, -, -, -, hfound⟩ :=
      (b.cache.entryAt (b.key t.maker t.classname)).lookup_cases force b.jobs.length
    · rw [hfound]
      refine .kept rfl fun k => ?_
      dsimp only
      rw [entryAt_put_key]
      split
      · next hk =>
        cases hk
        exact ⟨rfl, fun hdirty => .inl (by rw [Bool.or_eq_true]; exact .inl hdirty), fun _ => id⟩
      · exact .refl _
    · rw [hfound]
      refine .started t.maker t.classname force rfl hidle fun k => ?_
      dsimp only
      rw [entryAt_put_key]
      split
      · next hk => rw [hk]
      · rfl
    · rw [hfound]
      refine .kept rfl fun k => ?_
      dsimp only
      rw [entryAt_put_key]
      split
      · next hk =>
        cases hk
        exact .refl _
      · exact .refl _
  · split <;> exact .of_same rfl rfl
  · exact .of_same rfl rfl

/-- A request joins the compile that is under way, begins one, or is answered at once. -/
theorem stepCompile_asking {t : CompileThread} {force : Bool} (h : t.progress = .asking force) :
    (∃ running, (b.cache.entryAt (b.key t.maker t.classname)).compiling = some running ∧
      (b.stepCompile t).1.jobs = b.jobs ∧
      (b.stepCompile t).2 = { t with progress := .waiting running }) ∨
    ((b.cache.entryAt (b.key t.maker t.classname)).compiling = none ∧
      (b.stepCompile t).1.jobs = b.jobs ++ [{ maker := t.maker, classname := t.classname, force }] ∧
      ((b.stepCompile t).1.cache.entryAt (b.key t.maker t.classname)).dirty = false ∧
      (b.stepCompile t).2 = { t with progress := .waiting b.jobs.length }) ∨
    ∃ info, (b.cache.entryAt (b.key t.maker t.classname)).compiling = none ∧
      (b.cache.entryAt (b.key t.maker t.classname)).dirty = false ∧
      (b.cache.entryAt (b.key t.maker t.classname)).cached = some info ∧
      (b.stepCompile t).1.jobs = b.jobs ∧
      (b.stepCompile t).2 = { t with progress := .done (.ok info) } := by
  rw [stepCompile, h]
  dsimp only
  rw [lookup_key]
  obtain ⟨running, hrunning, hfound⟩ | ⟨hidle, -, hfound⟩ | ⟨info, hidle, -, hclean, hcached, hfound⟩ :=
    (b.cache.entryAt (b.key t.maker t.classname)).lookup_cases force b.jobs.length
  · rw [hfound]
    exact .inl ⟨running, hrunning, rfl, rfl⟩
  · rw [hfound]
    refine .inr (.inl ⟨hidle, rfl, ?_, rfl⟩)
    dsimp only
    rw [entryAt_put_key, if_pos rfl]
  · rw [hfound]
    exact .inr (.inr ⟨info, hidle, hclean, hcached, rfl, rfl⟩)

theorem stepJob_effect (b : Build) (j : Nat) :
    (b.stepJob j = b ∧ ∀ job, b.jobs[j]? = some job → job.isDone = true ∨ b.makers[job.maker]? = none) ∨
    ∃ job, b.jobs[j]? = some job ∧ job.isDone = false ∧
      ((∃ r, job.progress = .fresh ∧ (b.stepJob j).cache = b.cache ∧
        (b.stepJob j).jobs = b.jobs.set j { job with progress := .begun r }) ∨
      ∃ outcome, (b.stepJob j).jobs = b.jobs.set j { job with
          progress := .done outcome (b.cache.entryAt (b.key job.maker job.classname)).dirty } ∧
        ∀ k, (b.stepJob j).cache.entryAt k = if k = b.key job.maker job.classname then
          (b.cache.entryAt k).finish outcome else b.cache.entryAt k) := by
  obtain hkept | ⟨job, hjob, hopen, ⟨b', r, hworking, -, hfresh, heq⟩ |
    ⟨b', outcome, hworking, hend, heq⟩⟩ := b.stepJob_turn j
  · exact .inl hkept
  · refine .inr ⟨job, hjob, hopen, .inl ⟨r, hfresh, ?_, ?_⟩⟩
    · rw [heq]
      exact hworking.cache
    · rw [heq, ← hworking.jobs]
  · have hkey : b'.key job.maker job.classname = b.key job.maker job.classname :=
      key_of_setups (setups_of_jobEnd hend) ..
    refine .inr ⟨job, hjob, hopen, .inr ⟨outcome, ?_, fun k => ?_⟩⟩
    · rw [heq, ← hworking.jobs, ← hworking.cache, ← hkey]
      rfl
    · have hcache : (b'.finishJob j job outcome).cache = b'.cache.put (b'.outputDir job.maker)
          job.classname
          ((b'.cache.entryAt (b'.key job.maker job.classname)).finish outcome) := rfl
      rw [heq, hcache, entryAt_put_key, ← hworking.cache, ← hkey]
      split
      · next hk => rw [hk]
      · rfl

theorem jobTurn_stepJob (b : Build) (j : Nat) : JobTurn b (b.stepJob j) (some j) := by
  obtain ⟨heq, -⟩ | ⟨job, hjob, hopen, ⟨r, -, hcache, hjobs⟩ | ⟨outcome, hjobs, hentries⟩⟩ :=
    b.stepJob_effect j
  · rw [heq]
    exact .of_same rfl rfl
  · exact .begun j job r hjob hopen hjobs hcache rfl
  · exact .ended j job outcome rfl hjob hopen hjobs hentries

theorem weakens_clear (cache : Cache) (dir : Path) (k : Cache.Key) :
    (cache.entryAt k).Weakens ((cache.clear dir).entryAt k) := by
  rw [Cache.entryAt, Cache.entryAt, Cache.entryAt?_clear]
  split
  · cases hentry : cache.entryAt? k with
    | none => exact .refl _
    | some e =>
      rw [Option.filter_some]
      split
      · exact .refl _
      · next hnone =>
        have hcompiling : e.compiling = none := by simpa using hnone
        exact ⟨hcompiling.symm, fun _ => .inr ⟨hcompiling, rfl⟩, fun _ h => by cases h⟩
  · exact .refl _

theorem weakens_markClassDirty (cache : Cache) (c : String) (k : Cache.Key) :
    (cache.entryAt k).Weakens ((cache.markClassDirty c).entryAt k) := by
  rw [Cache.entryAt, Cache.entryAt, Cache.entryAt?_markClassDirty]
  split
  · cases cache.entryAt? k with
    | none => exact .refl _
    | some e => exact ⟨rfl, fun _ => .inl rfl, fun _ => id⟩
  · exact .refl _

theorem cache_growRun {r : Nat} {run : MakeRun} {m : Maker} {known : List String}
    {resources : ResourceIndex} {e : Expansion} :
    (b.growRun r run m known resources e).cache = b.cache := by
  rw [growRun]
  split <;> rfl

theorem cache_stepRun (b : Build) (r : Nat) :
    (b.stepRun r).cache = b.cache ∨ ∃ dir, (b.stepRun r).cache = b.cache.clear dir := by
  rw [stepRun]
  cases b.runs[r]? with
  | none => exact .inl rfl
  | some run =>
    dsimp only
    split
    · exact .inl rfl
    · next m _ _ =>
      obtain ⟨_, s, -, ⟨e, -, heq⟩ | ⟨erased, m', resources, -, -, heq⟩⟩ := b.beginRun_cases r run m
      · rw [heq]
        exact .inl rfl
      · rw [heq, cache_growRun]
        cases erased with
        | false => exact .inl rfl
        | true => exact .inr ⟨m.target.outputDir, rfl⟩
    · split
      · exact .inl rfl
      · exact .inl cache_growRun
    · exact .inl rfl

theorem jobTurn_stepRun (b : Build) (r : Nat) : JobTurn b (b.stepRun r) none := by
  have hjobs : (b.stepRun r).jobs = b.jobs := by
    obtain h | ⟨run, progress, -, -, h⟩ := b.stepRun_cases r
    · exact congrArg Ledger.jobs h
    · exact congrArg Ledger.jobs h
  refine .kept hjobs fun k => ?_
  obtain hcache | ⟨dir, hcache⟩ := b.cache_stepRun r
  · rw [hcache]
    exact .refl _
  · rw [hcache]
    exact weakens_clear ..

theorem cache_handle (b : Build) (change : ClassChange) :
    (b.handle change).1.cache = b.cache.markClassDirty change.classname := by
  rw [handle]
  cases change.kind <;> rfl

theorem jobTurn_handle (b : Build) (change : ClassChange) : JobTurn b (b.handle change).1 none := by
  refine .kept (congrArg Ledger.jobs (b.ledger_handle change)) fun k => ?_
  rw [cache_handle]
  exact weakens_markClassDirty ..

def Action.job? : Action → Option Nat
  | .job j => some j
  | _ => none

namespace System

theorem jobTurn_act (s : System) (a : Action) : JobTurn s.build (s.act a).build a.job? := by
  cases a with
  | job j => exact jobTurn_stepJob s.build j
  | run r => exact jobTurn_stepRun s.build r
  | change change => exact jobTurn_handle s.build change
  | compile k =>
    rw [act]
    split
    · exact .of_same rfl rfl
    · exact jobTurn_stepCompile ..
  | compileIn r k =>
    rw [act]
    split
    · split
      · exact .of_same rfl rfl
      · next t _ =>
        exact (jobTurn_stepCompile s.build t).congr rfl rfl
    · exact .of_same rfl rfl
  | make k =>
    rw [act]
    split
    · exact .of_same rfl rfl
    · next q _ =>
      rcases s.build.stepMake_cases q.thread with
        ⟨r, -, -, heq⟩ | ⟨-, -, heq⟩ | ⟨r, result, -, -, heq⟩ | ⟨r, result, -, heq⟩ | ⟨-, heq⟩ <;>
        rw [heq] <;> exact .of_same rfl rfl
  | askCompile | askMake | autoMake | edit => exact .of_same rfl rfl

end System

/-! ## Compiles that are under way -/

def IsUnderway (b : Build) (k : Cache.Key) (j : Nat) : Prop :=
  ∃ job, b.jobs[j]? = some job ∧ job.isDone = false ∧ b.key job.maker job.classname = k

theorem IsUnderway.lt_length (h : b.IsUnderway k j) : j < b.jobs.length := by
  obtain ⟨job, hjob, -⟩ := h
  exact (List.getElem?_eq_some_iff.1 hjob).1

theorem isUnderway_congr (hsetups : b'.setups = b.setups) (hjobs : b'.jobs[j]? = b.jobs[j]?) :
    b'.IsUnderway k j ↔ b.IsUnderway k j := by
  simp only [IsUnderway, hjobs, key_of_setups hsetups]

theorem isUnderway_iff_of_eq {job : CompileJob} (hjob : b.jobs[j]? = some job) :
    b.IsUnderway k j ↔ job.isDone = false ∧ b.key job.maker job.classname = k := by
  simp [IsUnderway, hjob]

def Registered (b : Build) : Prop :=
  ∀ k j, (b.cache.entryAt k).compiling = some j ↔ b.IsUnderway k j

theorem Registered.turn {turn : Option Nat} (h : Registered b) (hturn : JobTurn b b' turn)
    (hsetups : b'.setups = b.setups) : Registered b' := by
  intro k j
  cases hturn with
  | kept jobs entries =>
    rw [(entries k).compiling, h k j, isUnderway_congr hsetups (by rw [jobs])]
  | started i c force jobs idle entries =>
    by_cases hj : j = b.jobs.length
    · have hnew : b'.jobs[j]? = some { maker := i, classname := c, force } := by
        rw [jobs, hj, List.getElem?_concat_length]
      have hold : ¬ b.IsUnderway k j := fun hold => absurd hold.lt_length (by omega)
      rw [isUnderway_iff_of_eq hnew, key_of_setups hsetups, entries]
      split
      · next hk => simp [hk, hj, CompileJob.isDone]
      · next hk =>
        rw [h k j]
        exact iff_of_false hold fun hnew => hk hnew.2.symm
    · have hsame : b'.jobs[j]? = b.jobs[j]? := by
        rw [jobs, List.getElem?_append]
        split
        · rfl
        · next hlt =>
          rw [List.getElem?_eq_none (by simp; omega), List.getElem?_eq_none (by omega)]
      rw [isUnderway_congr hsetups hsame, ← h k j, entries]
      split
      · next hk => simp [hk, idle, Ne.symm hj]
      · rfl
  | begun j₀ job r found opened jobs cache =>
    rw [cache, h k j]
    by_cases hj : j = j₀
    · have hnew : b'.jobs[j]? = some { job with progress := .begun r } := by
        rw [jobs, hj, List.getElem?_set_self (List.getElem?_eq_some_iff.1 found).1]
      rw [isUnderway_iff_of_eq (hj ▸ found), isUnderway_iff_of_eq hnew, key_of_setups hsetups, opened]
      rfl
    · exact (isUnderway_congr hsetups (by rw [jobs, List.getElem?_set_ne (Ne.symm hj)])).symm
  | ended j₀ job outcome _ found opened jobs entries =>
    have hopen : (b.cache.entryAt (b.key job.maker job.classname)).compiling = some j₀ :=
      (h _ _).2 ⟨job, found, opened, rfl⟩
    by_cases hj : j = j₀
    · have hnew : b'.jobs[j]? = some { job with
          progress := .done outcome (b.cache.entryAt (b.key job.maker job.classname)).dirty } := by
        rw [jobs, hj, List.getElem?_set_self (List.getElem?_eq_some_iff.1 found).1]
      rw [isUnderway_iff_of_eq hnew, entries]
      split
      · simp [CacheEntry.finish, CompileJob.isDone]
      · next hk =>
        rw [h k j, isUnderway_iff_of_eq (hj ▸ found)]
        simp [CompileJob.isDone, Ne.symm hk]
    · rw [isUnderway_congr hsetups (by rw [jobs, List.getElem?_set_ne (Ne.symm hj)]), ← h k j, entries]
      split
      · next hk => simp [CacheEntry.finish, hk, hopen, Ne.symm hj]
      · rfl

namespace System

theorem registered_start (files : FileTree) (backend : Backend) (metadata : Metadata)
    (classes : Table Path) (makers : List Maker) :
    Registered (start files backend metadata classes makers).build := by
  intro k j
  refine iff_of_false ?_ fun h => absurd h.lt_length (Nat.not_lt_zero j)
  rintro ⟨⟩

theorem registered_act {s : System} (h : Registered s.build) (a : Action) :
    Registered (s.act a).build := h.turn (jobTurn_act s a) (setups_act s a)

theorem registered_foldl_act {s : System} (h : Registered s.build) (schedule : List Action) :
    Registered (schedule.foldl act s).build :=
  List.foldlRecOn (motive := fun s => Registered s.build) schedule act h
    fun _ h a _ => registered_act h a

end System

end Build

end ClassForge
