import ClassForge.Proofs.Build.Answers
import ClassForge.Proofs.Build.Skipping
import Mathlib.Data.List.Induction

/-!
# Classes that are added

When a class is added, it is compiled for the makers that need it, and they run again. A maker needs a
class that is the main class or the theme of an application, or that was in the load order of one in
its last make. A class that an application only takes in by its name or by a pattern is not asked for.
-/

namespace ClassForge

namespace Build

namespace System

variable {s : System} {a : Action} {i j n : Nat} {c : String} {m : Maker} {change : ClassChange}
  {closing : Closing} {schedule : List Action}

/-! ## Receiving a change -/

/-- A change comes in, and what it gives to do begins. -/
def receive (s : System) (change : ClassChange) : System :=
  match s.build.handle change with
  | (build, .compiles threads) => { s with build, compiles := s.compiles ++ threads }
  | (build, .makes threads) =>
    { s with build, requesters := s.requesters ++ threads.map fun thread => { thread } }
  | (build, .drive _) => { s with build }

theorem build_receive (s : System) (change : ClassChange) :
    (s.receive change).build = (s.build.handle change).1 := by
  rw [receive]
  split <;> next h => rw [h]

theorem compiles_receive (s : System) (h : change.kind = .added) :
    (s.receive change).compiles = s.compiles ++
      (s.build.dependents change.classname).map fun i => compileThread i false change.classname := by
  obtain ⟨kind, classname, path⟩ := change
  cases h
  rfl

theorem outdated_markClassDirty (cache : Cache) (dir : String) :
    ((cache.markClassDirty c).entryAt (dir, c)).IsOutdated n := by
  rw [Cache.entryAt, Cache.entryAt?_markClassDirty, if_pos rfl]
  cases cache.entryAt? (dir, c) with
  | none => exact ⟨fun _ hj => (by cases hj), fun _ => .inr fun _ hinfo => by cases hinfo⟩
  | some e => exact ⟨fun _ _ => .inr rfl, fun _ => .inl rfl⟩

theorem setups_receive (s : System) (change : ClassChange) :
    (s.receive change).build.setups = s.build.setups := by
  rw [build_receive]
  exact s.setups_act (.change change)

theorem registered_receive (h : Registered s.build) (change : ClassChange) :
    Registered (s.receive change).build := by
  rw [build_receive]
  exact registered_act h (.change change)

theorem ledger_receive (s : System) (change : ClassChange) :
    (s.receive change).build.ledger = s.build.ledger := by
  rw [build_receive, ledger_handle]

def Handled (s s' t : System) : Prop :=
  ∀ r < s'.compiles.length, s.compiles.length ≤ r → (t.compiles[r]?).any (·.isAnswered) = true

instance (s s' t : System) : Decidable (Handled s s' t) :=
  inferInstanceAs (Decidable (∀ r < _, _ ≤ r → _ = true))

theorem pending_receive (hreg : Registered s.build) (hkind : change.kind = .added)
    (hi : i ∈ s.build.dependents change.classname) :
    ∃ r t, s.compiles.length ≤ r ∧ r < (s.receive change).compiles.length ∧
      (s.receive change).compiles[r]? = some t ∧
      (s.receive change).build.Pending s.build.jobs.length (s.build.key i change.classname) t := by
  obtain ⟨q, hq⟩ := List.mem_iff_getElem?.1 hi
  have hget : (s.receive change).compiles[s.compiles.length + q]? =
      some (compileThread i false change.classname) := by
    rw [compiles_receive s hkind, List.getElem?_append_right (Nat.le_add_right ..),
      Nat.add_sub_cancel_left, List.getElem?_map, hq]
    rfl
  refine ⟨_, _, Nat.le_add_right .., (List.getElem?_eq_some_iff.1 hget).1, hget, ?_⟩
  have hjobs : (s.receive change).build.jobs = s.build.jobs :=
    congrArg Ledger.jobs (s.ledger_receive change)
  constructor
  · exact registered_receive hreg change
  · exact Nat.le_of_eq (by rw [hjobs])
  · rw [build_receive, cache_handle]
    exact outdated_markClassDirty ..
  · exact key_of_setups (s.setups_receive change) ..
  · exact .inl ⟨false, rfl⟩

/-- Once the requests that an added class has led to have been answered, the class has been compiled
for every maker that needed it, by a compile that has begun since. -/
theorem compiled_of_handled (hreg : Registered s.build) (hkind : change.kind = .added)
    (hi : i ∈ s.build.dependents change.classname) (later : List Action)
    (hdone : Handled s (s.receive change) (later.foldl act (s.receive change))) :
    Happened act (s.receive change) later
      (CompilesLater s.build.jobs.length (s.build.key i change.classname)) := by
  obtain ⟨r, t, hr, hr', ht, hpending⟩ := pending_receive hreg hkind hi
  let P (u : System) : Prop := ∃ t, u.compiles[r]? = some t ∧
    u.build.Pending s.build.jobs.length (s.build.key i change.classname) t
  have hstep (u : System) (a : Action) (h : P u) : CompilesLater s.build.jobs.length
      (s.build.key i change.classname) u a ∨ P (u.act a) := by
    obtain ⟨t, ht, h⟩ := h
    exact pending_act ht h a
  obtain h | ⟨t', ht', hpending'⟩ := happened_or hstep ⟨t, ht, hpending⟩ later
  · exact h
  · have hanswered := hdone r hr' hr
    rw [ht', Option.any_some, CompileThread.isAnswered] at hanswered
    obtain ⟨force, hasking⟩ | ⟨j, hwaiting, -⟩ := hpending'.progress
    · rw [hasking] at hanswered
      cases hanswered
    · rw [hwaiting] at hanswered
      cases hanswered

/-! ## The make after the compile -/

theorem autoMake_act (hauto : s.build.autoMake = true) (ha : a ≠ .autoMake false) :
    (s.act a).build.autoMake = true := by
  have hcompile (t : CompileThread) : (s.build.stepCompile t).1.autoMake = true := by
    obtain h | ⟨force, j, h⟩ := s.build.stepCompile_cases t
    · exact (congrArg Ledger.autoMake h).trans hauto
    · exact (congrArg Ledger.autoMake h).trans hauto
  cases a with
  | compile k =>
    rw [act]
    split
    · exact hauto
    · exact hcompile _
  | compileIn r k =>
    rw [act]
    split
    · split
      · exact hauto
      · exact hcompile _
    · exact hauto
  | job j =>
    obtain h | ⟨job, -, -, ⟨r, h⟩ | ⟨b, outcome, h, heq⟩⟩ := s.build.stepJob_cases j
    · exact (congrArg Ledger.autoMake h).trans hauto
    · exact (congrArg Ledger.autoMake h).trans hauto
    · have hb : b.autoMake = true := (congrArg Ledger.autoMake h).trans hauto
      exact (congrArg Build.autoMake heq).trans hb
  | make k =>
    rw [act]
    split
    · exact hauto
    · next q _ =>
      obtain ⟨r, -, -, heq⟩ | ⟨-, -, heq⟩ | ⟨r, result, -, -, heq⟩ | ⟨r, result, -, heq⟩ | ⟨-, heq⟩ :=
        s.build.stepMake_cases q.thread <;>
        rw [heq] <;> exact hauto
  | run r =>
    obtain h | ⟨run, progress, -, -, h⟩ := s.build.stepRun_cases r
    · exact (congrArg Ledger.autoMake h).trans hauto
    · exact (congrArg Ledger.autoMake h).trans hauto
  | change change => exact (congrArg Ledger.autoMake (s.build.ledger_handle change)).trans hauto
  | autoMake on =>
    cases on with
    | true => rfl
    | false => exact absurd rfl ha
  | askCompile | askMake | edit => exact hauto

theorem autoMake_foldl_act (hauto : s.build.autoMake = true)
    (h : ∀ a ∈ schedule, a ≠ .autoMake false) : (schedule.foldl act s).build.autoMake = true :=
  List.foldlRecOn (motive := fun s => s.build.autoMake = true) schedule act hauto
    fun _ hauto a ha => autoMake_act hauto (h a ha)

theorem mem_dependents {b : Build} :
    i ∈ b.dependents c ↔ ∃ m, b.makers[i]? = some m ∧ m.dependsOn c = true := by
  rw [dependents, List.mem_filter, List.mem_range]
  cases hm : b.makers[i]? with
  | none => simp
  | some m => simp [(List.getElem?_eq_some_iff.1 hm).1]

/-- A class is the main class or the theme of an application. -/
def IsNamed (apps : List Application) (c : String) : Prop :=
  ∃ a ∈ apps, a.mainClass = c ∨ a.theme = some c

instance (apps : List Application) (c : String) : Decidable (IsNamed apps c) :=
  inferInstanceAs (Decidable (∃ a ∈ apps, _))

theorem dependsOn_of_isNamed (h : IsNamed m.applications c) : m.dependsOn c = true := by
  obtain ⟨a, ha, hnamed⟩ := h
  refine List.any_eq_true.2 ⟨a, ha, ?_⟩
  obtain h | h := hnamed <;> simp [Application.dependsOn, h]

theorem mem_dependents_foldl_act (hm : s.build.makers[i]? = some m) (h : IsNamed m.applications c)
    (schedule : List Action) : i ∈ (schedule.foldl act s).build.dependents c := by
  obtain ⟨m', hm', hsetup⟩ := exists_maker_foldl_act hm schedule
  have happs : m'.applications = m.applications := congrArg Prod.snd hsetup
  exact mem_dependents.2 ⟨m', hm', dependsOn_of_isNamed (happs ▸ h)⟩

/-- A maker that needs a class when a compile of it ends gets its request by the time when no compile
is under way. -/
theorem Completes.hands (hbalanced : Balanced s.build) (h : s.Completes j c)
    (hauto : s.build.autoMake = true) (hi : i ∈ (s.act (.job j)).build.dependents c)
    (later : List Action)
    (hzero : ((.job j :: later).foldl act s).build.wave.inFlight = 0) :
    Happened act s (.job j :: later) (Hands i) := by
  obtain hhands | hpending := h.hands_or_pending hauto hi
  · exact .head hhands
  · have hstep (u : System) (a : Action) (h : i ∈ u.build.wave.pending) :
        Hands i u a ∨ i ∈ (u.act a).build.wave.pending := pending_step h a
    obtain hlater | hpending := happened_or hstep hpending later
    · exact .tail hlater
    · have hnone := (hbalanced.run (.job j :: later)).drained hzero
      rw [List.foldl_cons] at hnone
      rw [hnone] at hpending
      cases hpending

/-! ## What an added class leads to -/

theorem balanced_receive (h : Balanced s.build) (change : ClassChange) :
    Balanced (s.receive change).build := by
  have hledger := s.ledger_receive change
  have hwave : (s.receive change).build.wave = s.build.wave := congrArg Ledger.wave hledger
  have hjobs : (s.receive change).build.jobs = s.build.jobs := congrArg Ledger.jobs hledger
  refine ⟨?_, ?_⟩
  · rw [hwave, h.counted, Build.underway, Build.underway, hjobs]
  · rw [hwave]
    exact h.drained

/-- A class that was added has been compiled for a maker, and the maker is let run. -/
structure Remade (s s' : System) (i : Nat) (c : String) : Prop where
  /-- Once the requests have been answered, a compile that was not there before has ended. With it or
  with a later one the maker gets its request, by the time when no compile is under way. -/
  made : ∀ later, (∀ a ∈ later, a ≠ .autoMake false) → Handled s s' (later.foldl act s') →
    ∃ before a after, later = before ++ a :: after ∧
      CompilesLater s.build.jobs.length (s.build.key i c) (before.foldl act s') a ∧
      ((later.foldl act s').build.wave.inFlight = 0 →
        Happened act (before.foldl act s') (a :: after) (Hands i))
  reached : s.build.wave.inFlight = 0 → ∃ later : List Action, (∀ a ∈ later, a.IsCompiling) ∧
    Handled s s' (later.foldl act s') ∧ (later.foldl act s').build.wave.inFlight = 0

theorem exists_handled (hreg : Registered s.build) (hbalanced : Balanced s.build)
    (hkind : change.kind = .added) (hidle : s.build.wave.inFlight = 0) :
    ∃ later : List Action, (∀ a ∈ later, a.IsCompiling) ∧
      Handled s (s.receive change) (later.foldl act (s.receive change)) ∧
      (later.foldl act (s.receive change)).build.wave.inFlight = 0 := by
  have hbalanced' := balanced_receive hbalanced change
  have hidle' : (s.receive change).build.underway = 0 := by
    rw [← hbalanced'.counted, ← hidle]
    exact congrArg (·.wave.inFlight) (s.ledger_receive change)
  have hmakers : ∀ i ∈ s.build.dependents change.classname,
      ∃ m, (s.receive change).build.makers[i]? = some m := by
    intro i hi
    obtain ⟨m, hm, -⟩ := mem_dependents.1 hi
    obtain ⟨m', hm', -⟩ := exists_maker_of_setups (s.setups_receive change) hm
    exact ⟨m', hm'⟩
  obtain ⟨later, hturns, hdone, answered, hcompiles, hlength, hanswered⟩ := exists_all_answered _
    (registered_receive hreg change) hidle' hmakers (compiles_receive s hkind)
  refine ⟨later, hturns, fun r hr' hr => ?_, ?_⟩
  · rw [compiles_receive s hkind, List.length_append, List.length_map, ← hlength] at hr'
    have hlt : r - s.compiles.length < answered.length := by omega
    rw [hcompiles, List.getElem?_append_right hr, List.getElem?_eq_getElem hlt]
    exact hanswered _ (List.getElem_mem hlt)
  · rw [(hbalanced'.run later).counted, hdone]

theorem remade_of_isNamed (hreg : Registered s.build) (hbalanced : Balanced s.build)
    (hauto : s.build.autoMake = true) (hm : s.build.makers[i]? = some m)
    (hkind : change.kind = .added) (h : IsNamed m.applications change.classname) :
    Remade s (s.receive change) i change.classname := by
  have hi : i ∈ s.build.dependents change.classname := mem_dependents_foldl_act hm h []
  have hauto' : (s.receive change).build.autoMake = true :=
    (congrArg Ledger.autoMake (s.ledger_receive change)).trans hauto
  have hm' : (s.receive change).build.makers[i]? = some m := by
    rw [build_receive, makers_handle, hm]
  refine ⟨fun later hkeeps hdone => ?_, exists_handled hreg hbalanced hkind⟩
  obtain ⟨before, a, after, rfl, hcompiles⟩ := compiled_of_handled hreg hkind hi later hdone
  refine ⟨before, a, after, rfl, hcompiles, fun hzero => ?_⟩
  obtain ⟨j, rfl, -, -, hcompletes⟩ := hcompiles
  rw [List.foldl_append] at hzero
  have hbefore : ∀ a ∈ before, a ≠ .autoMake false := fun a ha => hkeeps a (List.mem_append_left _ ha)
  have hneeds := mem_dependents_foldl_act hm' h (before ++ [Action.job j])
  rw [List.foldl_append] at hneeds
  exact hcompletes.hands ((balanced_receive hbalanced change).run before)
    (autoMake_foldl_act hauto' hbefore) hneeds after hzero

/-- Nothing is asked for a maker. -/
structure Ignored (s s' : System) (i : Nat) : Prop where
  compiles : ∀ t ∈ s'.compiles.drop s.compiles.length, t.maker ≠ i
  requesters : s'.requesters = s.requesters
  ledger : s'.build.ledger = s.build.ledger

theorem ignored_of_not_mem (hkind : change.kind = .added)
    (hi : i ∉ s.build.dependents change.classname) : Ignored s (s.receive change) i where
  compiles := by
    rw [compiles_receive s hkind, List.drop_left]
    intro t ht
    obtain ⟨k, hk, rfl⟩ := List.mem_map.1 ht
    rintro rfl
    exact hi hk
  requesters := by
    obtain ⟨kind, classname, path⟩ := change
    cases hkind
    rfl
  ledger := s.ledger_receive change

def Resolves (m : Maker) (c : Closing) : Prop :=
  ∀ a ∈ m.applications, ∃ b ∈ m.applications, b.name = a.name ∧
    m.appClasses.get? a.name = some (NameSet.ofNames (c.order b))

theorem resolves_of_makes {earlier : List (Except String Closing)}
    (hm : s.build.makers[i]? = some m) (h : makes i s schedule = .ok closing :: earlier) :
    ∃ m', (schedule.foldl act s).build.makers[i]? = some m' ∧ m'.applications = m.applications ∧
      Resolves m' closing := by
  induction schedule using List.reverseRecOn with
  | nil => cases h
  | append_singleton schedule a ih =>
    obtain ⟨m₁, hm₁, hsetup⟩ := exists_maker_foldl_act hm schedule
    obtain ⟨m₂, hm₂, hturn⟩ := makerTurn_act hm₁ a
    have happs : m₁.applications = m.applications := congrArg Prod.snd hsetup
    rw [makes_append, makes, makes, List.nil_append] at h
    rw [List.foldl_append]
    refine ⟨m₂, hm₂, ?_⟩
    cases hmake : make? i (schedule.foldl act s) a with
    | none =>
      rw [hmake] at h hturn
      cases hturn with
      | kept kept =>
        obtain ⟨m₁', hm₁', -, hresolves⟩ := ih h
        cases hm₁.symm.trans hm₁'
        refine ⟨kept.applications.trans happs, ?_⟩
        rw [Resolves, kept.applications, kept.appClasses]
        exact hresolves
    | some result =>
      rw [hmake] at h hturn
      cases h
      cases hturn with
      | closed c closes =>
        refine ⟨closes.applications.trans happs, ?_⟩
        rw [Resolves, closes.applications]
        exact closes.resolved

theorem not_dependsOn (h : Resolves m closing) (hnot : ¬ IsNamed m.applications c)
    (horder : ∀ a ∈ m.applications, c ∉ closing.order a) : m.dependsOn c = false := by
  rw [Bool.eq_false_iff]
  intro hdepends
  obtain ⟨a, ha, hdepends⟩ := List.any_eq_true.1 hdepends
  obtain ⟨b, hb, -, hclasses⟩ := h a ha
  rw [Table.getD, hclasses, Option.getD_some, Application.dependsOn] at hdepends
  simp only [Bool.or_eq_true, decide_eq_true_eq] at hdepends
  obtain hnamed | hresolved := hdepends
  · exact hnot ⟨a, ha, hnamed⟩
  · refine horder b hb (NameSet.mem_ofNames.1 ?_)
    exact Table.mem_keys.2 (Table.contains_iff.1 hresolved)

theorem ignored_of_makes {earlier : List (Except String Closing)} (hm : s.build.makers[i]? = some m)
    {before : List Action} (hmakes : makes i s before = .ok closing :: earlier)
    (hkind : change.kind = .added) (hnot : ¬ IsNamed m.applications change.classname)
    (horder : ∀ a ∈ m.applications, change.classname ∉ closing.order a) :
    Ignored (before.foldl act s) ((before.foldl act s).receive change) i := by
  obtain ⟨m', hm', happs, hresolves⟩ := resolves_of_makes hm hmakes
  refine ignored_of_not_mem hkind fun hi => ?_
  obtain ⟨m₁, hm₁, hdepends⟩ := mem_dependents.1 hi
  cases hm'.symm.trans hm₁
  rw [not_dependsOn hresolves (happs ▸ hnot) (happs ▸ horder)] at hdepends
  cases hdepends

/-- A maker whose last make has ended well is let run after a class was added that is the main class or
the theme of one of its applications. A class of another kind leads to nothing, unless it was in a load
order of that make. -/
theorem added_class_remade {files : FileTree} {backend : Backend} {metadata : Metadata}
    {classes : Table Path} {makers : List Maker} {before : List Action} {closing : Closing}
    {earlier : List (Except String Closing)} {change : ClassChange}
    (hm : makers[i]? = some m)
    (hmakes : makes i (start files backend metadata classes makers) before = .ok closing :: earlier)
    (hauto : (before.foldl act (start files backend metadata classes makers)).build.autoMake = true)
    (hkind : change.kind = .added) :
    (IsNamed m.applications change.classname →
      Remade (before.foldl act (start files backend metadata classes makers))
        ((before.foldl act (start files backend metadata classes makers)).receive change) i
        change.classname) ∧
    (¬ IsNamed m.applications change.classname →
      (∀ a ∈ m.applications, change.classname ∉ closing.order a) →
      Ignored (before.foldl act (start files backend metadata classes makers))
        ((before.foldl act (start files backend metadata classes makers)).receive change) i) := by
  have hreg := registered_foldl_act (registered_start files backend metadata classes makers) before
  have hbalanced : Balanced (start files backend metadata classes makers).build := ⟨rfl, fun _ => rfl⟩
  have hm₀ : (start files backend metadata classes makers).build.makers[i]? = some m := hm
  refine ⟨fun hnamed => ?_, ignored_of_makes hm₀ hmakes hkind⟩
  obtain ⟨m', hm', hsetup⟩ := exists_maker_foldl_act hm₀ before
  have happs : m'.applications = m.applications := congrArg Prod.snd hsetup
  exact remade_of_isNamed hreg (hbalanced.run before) hauto hm' hkind (happs ▸ hnamed)

def pluginSources : FileTree :=
  { (FileTree.put {} ["A.js"] (.file "qx.Class.define(\"a.A\",\x7b\x7d);" 1)).put ["B.js"]
      (.file "qx.Class.define(\"p.B\",\x7b\x7d);" 1) with now := 2 }

/-- A system with the main class only. -/
def unplugged : System :=
  start pluginSources { transformer := .passthrough, engine := .inline {} }
    { rootDir := ⟨"/m"⟩
      records := .ofList [("a.A", { (default : ClassRecord) with classname := "a.A" })]
      files := .ofList [("/A.js", "a.A")] }
    (.ofList [("a.A", ⟨"/A.js"⟩)]) [pluginMaker]

/-- A make that ends well, after which makers are let run by themselves. -/
def madeOnce : List Action :=
  [.askMake 0 false, .make 0, .run 0, .compileIn 0 0, .job 0, .compileIn 0 0, .run 0, .make 0,
    .autoMake true]

def onlyMake? (i : Nat) (s : System) (schedule : List Action) : Option Closing :=
  match makes i s schedule with
  | [.ok c] => some c
  | _ => none

theorem makes_of_onlyMake {c : Closing} (h : onlyMake? i s schedule = some c) :
    makes i s schedule = [.ok c] := by
  rw [onlyMake?] at h
  split at h
  · next hmakes =>
    cases h
    exact hmakes
  · cases h

theorem autoMake_madeOnce : (madeOnce.foldl act unplugged).build.autoMake = true := rfl

/-- The state after a class was added. -/
def plugged (classname : String) (file : Path) : System :=
  (madeOnce.foldl act unplugged).receive ⟨.added, classname, file⟩

-- what three proofs below need of the same make
theorem madeOnce_unplugged :
    (onlyMake? 0 unplugged madeOnce).any (fun closing => !closing.classes.contains "p.B") = true ∧
    (Handled (madeOnce.foldl act unplugged) (plugged "a.A" ⟨"/A.js"⟩)
        ([.compile 0, .job 1, .compile 0].foldl act (plugged "a.A" ⟨"/A.js"⟩)) ∧
      ([.compile 0, .job 1, .compile 0].foldl act
        (plugged "a.A" ⟨"/A.js"⟩)).build.wave.inFlight = 0) ∧
    "p.B" ∈ pluginApp.requiredClasses (plugged "p.B" ⟨"/B.js"⟩).build.metadata.classnames := by
  decide +kernel

theorem exists_makes_madeOnce :
    ∃ closing, makes 0 unplugged madeOnce = [.ok closing] ∧ closing.classes.contains "p.B" = false := by
  obtain ⟨closing, honly, hnone⟩ := (Option.any_eq_true _ _).1 madeOnce_unplugged.1
  exact ⟨closing, makes_of_onlyMake honly, Bool.not_eq_true' _ ▸ hnone⟩

/-- The main class is added again. -/
theorem added_class_remade_mainClass :
    IsNamed pluginMaker.applications "a.A" ∧
    ∃ before j after, [.compile 0, .job 1, .compile 0] = before ++ .job j :: after ∧
      (before.foldl act (plugged "a.A" ⟨"/A.js"⟩)).Completes j "a.A" ∧
      Happened act (before.foldl act (plugged "a.A" ⟨"/A.js"⟩)) (.job j :: after) (Hands 0) := by
  obtain ⟨-, hlater, -⟩ := madeOnce_unplugged
  obtain ⟨closing, hmakes, -⟩ := exists_makes_madeOnce
  have hnamed : IsNamed pluginMaker.applications "a.A" := by decide
  have hremade : Remade (madeOnce.foldl act unplugged) (plugged "a.A" ⟨"/A.js"⟩) 0 "a.A" :=
    (added_class_remade (m := pluginMaker) rfl hmakes autoMake_madeOnce rfl).1 hnamed
  obtain ⟨before, a, after, heq, ⟨j, rfl, -, -, hcompletes⟩, hhands⟩ :=
    hremade.made _ (by simp) hlater.1
  exact ⟨hnamed, before, j, after, heq, hcompletes, hhands hlater.2⟩

/-- A class that the application takes in by a pattern is added, and nothing is asked for. -/
theorem added_class_remade_included :
    (∃ closing, makes 0 unplugged madeOnce = [.ok closing]) ∧
    (madeOnce.foldl act unplugged).build.autoMake = true ∧
    "p.B" ∈ pluginApp.requiredClasses (plugged "p.B" ⟨"/B.js"⟩).build.metadata.classnames ∧
    Ignored (madeOnce.foldl act unplugged) (plugged "p.B" ⟨"/B.js"⟩) 0 := by
  obtain ⟨closing, hmakes, hnone⟩ := exists_makes_madeOnce
  have hm : unplugged.build.makers[0]? = some pluginMaker := rfl
  refine ⟨⟨closing, hmakes⟩, autoMake_madeOnce, madeOnce_unplugged.2.2, ?_⟩
  refine ignored_of_makes hm hmakes rfl (by decide) fun a _ hmem => ?_
  have hclass : closing.classes.contains "p.B" = true := LoadOrder.contains_of_mem_ofRoots hmem
  rw [hnone] at hclass
  cases hclass

end System

end Build

end ClassForge
