import ClassForge.Proofs.Analysis.LoadOrder
import ClassForge.Proofs.Build.Interleaving
import ClassForge.Proofs.Files.Steps

/-!
# Makes of a maker

Whatever else goes on in a build, a maker changes when a class is compiled for it and when one of its
makes begins, goes on or ends. Only the end of a make writes applications.
-/

namespace ClassForge

/-! ## The end of a make -/

namespace MakeM

variable {ε α : Type} {s s' : Making} {a : FileM ε α} {wrap : ε → MakeError}

theorem run_get_bind (f : Making → MakeM α) (s : Making) : (get >>= f).run s = (f s).run s := rfl

theorem run_update_bind (g : Maker → Maker) (f : Unit → MakeM α) (s : Making) :
    (update g >>= f).run s = (f ()).run { s with maker := g s.maker } := rfl

theorem run_emit_bind (e : Event) (f : Unit → MakeM α) (s : Making) :
    (emit e >>= f).run s = (f ()).run { s with events := s.events ++ [e] } := rfl

theorem run_onFiles (a : FileM ε α) (wrap : ε → MakeError) (s : Making) :
    (onFiles a wrap).run s =
      ((a.run s.files).1.mapError wrap, { s with files := (a.run s.files).2 }) := by
  cases h : a.run s.files with
  | mk result files =>
    simp only [onFiles, run_get_bind, h]
    cases result <;> rfl

theorem maker_of_run_onFiles {result : Except MakeError α}
    (h : (onFiles a wrap).run s = (result, s')) : s'.maker = s.maker := by
  rw [run_onFiles] at h
  cases h
  rfl

theorem events_of_run_onFiles {result : Except MakeError α}
    (h : (onFiles a wrap).run s = (result, s')) : s'.events = s.events := by
  rw [run_onFiles] at h
  cases h
  rfl

theorem exists_of_run_onFiles {x : α} (h : (onFiles a wrap).run s = (.ok x, s')) :
    ∃ files, a.run s.files = (.ok x, files) := by
  rw [run_onFiles] at h
  rcases hrun : a.run s.files with ⟨e | y, files⟩
  · rw [hrun] at h
    cases h
  · rw [hrun] at h
    cases h
    exact ⟨files, rfl⟩

end MakeM

namespace Maker

variable {s s' : Making} {m m' : Maker} {known names : List String} {resources : ResourceIndex}
  {e : MakeError}
  {catalogs : Table Catalog} {recent : NameSet} {a : Application} {apps : List Application}

theorem contains_add (names : NameSet) (name n : String) :
    (names.add name).contains n = true ↔ n = name ∨ names.contains n = true := by
  by_cases h : n = name <;> simp [NameSet.add, Table.contains, Table.get?_insert, h]

theorem isUnchanged_iff {name : String} {order : List String} {times : Table UInt64} :
    m.isUnchanged name order recent times = true ↔ m.generated.contains name = true ∧
      (∀ c ∈ order, recent.contains c = false) ∧ m.moduleTimes.get? name = some times := by
  simp [isUnchanged, and_assoc]

def Generated (classes : Table BuildInfo) (a : Application) (order : List String) : Prop :=
  ∃ (m : Maker) (resources : ResourceIndex) (catalogs : Table Catalog) (files files' : FileTree),
    m.analyser.classes = classes ∧
      (m.target.generate (m.bundleOf resources catalogs a order)).run files = (.ok (), files')

structure Wrote (m m' : Maker) (names : List String) : Prop where
  analyser : m'.analyser = m.analyser
  applications : m'.applications = m.applications
  generated : ∀ n, m'.generated.contains n = true → m.generated.contains n = true ∨ n ∈ names

theorem wrote_of_makeApplication {written : Bool}
    (h : (makeApplication known resources catalogs recent a).run s = (.ok written, s')) :
    Wrote s.maker s'.maker (if written then [a.name] else []) ∧
      (written = true → Generated s.maker.analyser.classes a
        (s.maker.analyser.loadOrder (a.requiredClasses known))) ∧
      (written = false → s.maker.generated.contains a.name = true ∧
        ∀ c ∈ s.maker.analyser.loadOrder (a.requiredClasses known), recent.contains c = false) ∧
      s'.maker.appClasses = s.maker.appClasses.insert a.name
        (NameSet.ofNames (s.maker.analyser.loadOrder (a.requiredClasses known))) := by
  simp only [makeApplication, MakeM.run_get_bind, MakeM.run_update_bind] at h
  split at h
  · next hunchanged =>
    cases h
    obtain ⟨hgenerated, hrecent, -⟩ := isUnchanged_iff.1 hunchanged
    refine ⟨⟨rfl, rfl, fun n hn => .inl hn⟩, fun h => ?_, fun _ => ⟨hgenerated, hrecent⟩, rfl⟩
    cases h
  · simp only [MakeM.run_emit_bind] at h
    obtain ⟨_, s₁, hgenerate, hrest⟩ := exists_of_run_bind_ok h
    have hmaker := MakeM.maker_of_run_onFiles hgenerate
    obtain ⟨files, hfiles⟩ := MakeM.exists_of_run_onFiles hgenerate
    cases hrest
    dsimp only at hmaker
    refine ⟨⟨?_, ?_, fun n hn => ?_⟩, fun _ => ⟨s.maker, resources, catalogs, _, files, rfl, hfiles⟩,
      fun h => (by cases h), congrArg appClasses hmaker⟩
    · dsimp only
      rw [hmaker]
    · dsimp only
      rw [hmaker]
    · dsimp only at hn
      rw [hmaker, contains_add] at hn
      simpa [or_comm] using hn

theorem wrote_of_makeApplications
    (h : (makeApplications known resources catalogs recent apps).run s = (.ok names, s')) :
    Wrote s.maker s'.maker names ∧
      (∀ n ∈ names, ∃ a ∈ apps, a.name = n ∧ Generated s.maker.analyser.classes a
        (s.maker.analyser.loadOrder (a.requiredClasses known))) ∧
      ∀ a ∈ apps, a.name ∉ names → s.maker.generated.contains a.name = true ∧
        ∀ c ∈ s.maker.analyser.loadOrder (a.requiredClasses known), recent.contains c = false := by
  induction apps generalizing s names with
  | nil =>
    cases h
    refine ⟨⟨rfl, rfl, fun n hn => .inl hn⟩, fun n hn => ?_, fun a ha => ?_⟩
    · cases hn
    · cases ha
  | cons a apps ih =>
    obtain ⟨written, s₁, hfirst, hrest⟩ := exists_of_run_bind_ok h
    obtain ⟨others, s₂, hothers, hend⟩ := exists_of_run_bind_ok hrest
    cases hend
    obtain ⟨hwrote, hwritten, hskipped, -⟩ := wrote_of_makeApplication hfirst
    obtain ⟨hwrote', hwritten', hskipped'⟩ := ih hothers
    have hnames : (if written = true then a.name :: others else others) =
        (if written = true then [a.name] else []) ++ others := by cases written <;> rfl
    rw [hnames]
    refine ⟨⟨hwrote'.analyser.trans hwrote.analyser, hwrote'.applications.trans hwrote.applications,
      fun n hn => ?_⟩, fun n hn => ?_, fun b hb hnot => ?_⟩
    · rw [List.mem_append, ← or_assoc]
      exact (hwrote'.generated n hn).imp_left (hwrote.generated n)
    · obtain hn | hn := List.mem_append.1 hn
      · cases written with
        | false => cases hn
        | true => exact ⟨a, List.mem_cons_self, (List.mem_singleton.1 hn).symm, hwritten rfl⟩
      · obtain ⟨b, hb, hname, hgenerated⟩ := hwritten' n hn
        rw [hwrote.analyser] at hgenerated
        exact ⟨b, List.mem_cons_of_mem a hb, hname, hgenerated⟩
    · obtain ⟨hfirst, hothers⟩ := not_or.1 (mt List.mem_append.2 hnot)
      obtain rfl | hb := List.mem_cons.1 hb
      · cases written with
        | false => exact hskipped rfl
        | true => exact absurd List.mem_cons_self hfirst
      · obtain ⟨hgenerated, hrecent⟩ := hskipped' b hb hothers
        rw [hwrote.analyser] at hrecent
        exact ⟨(hwrote.generated _ hgenerated).resolve_right hfirst, hrecent⟩

theorem appClasses_of_makeApplications
    (h : (makeApplications known resources catalogs recent apps).run s = (.ok names, s')) (n : String) :
    (s'.maker.appClasses.get? n = s.maker.appClasses.get? n ∧ ∀ a ∈ apps, a.name ≠ n) ∨
    ∃ a ∈ apps, a.name = n ∧ s'.maker.appClasses.get? n =
      some (NameSet.ofNames (s.maker.analyser.loadOrder (a.requiredClasses known))) := by
  induction apps generalizing s names with
  | nil =>
    cases h
    refine .inl ⟨rfl, fun a ha => ?_⟩
    cases ha
  | cons a apps ih =>
    obtain ⟨written, s₁, hfirst, hrest⟩ := exists_of_run_bind_ok h
    obtain ⟨others, s₂, hothers, hend⟩ := exists_of_run_bind_ok hrest
    cases hend
    obtain ⟨hwrote, -, -, hclasses⟩ := wrote_of_makeApplication hfirst
    obtain ⟨hsame, hnone⟩ | ⟨b, hb, hname, hlast⟩ := ih hothers
    · rw [hsame, hclasses, Table.get?_insert]
      split
      · next hn => exact .inr ⟨a, List.mem_cons_self, hn.symm, rfl⟩
      · next hn => exact .inl ⟨rfl, List.forall_mem_cons.2 ⟨Ne.symm hn, hnone⟩⟩
    · rw [hwrote.analyser] at hlast
      exact .inr ⟨b, List.mem_cons_of_mem a hb, hname, hlast⟩

/-- What the end of a make does to a maker: applications are written from their load order, and one
that is not written has been written before, and none of its classes has been compiled since the make
before. -/
structure Finished (known : List String) (m m' : Maker) (built : List String) : Prop where
  analyser : m'.analyser = { m.analyser with recent := .empty }
  applications : m'.applications = m.applications
  generated : ∀ n, m'.generated.contains n = true → m.generated.contains n = true ∨ n ∈ built
  written : ∀ n ∈ built, ∃ a ∈ m.applications, a.name = n ∧
    Generated m.analyser.classes a (m.analyser.loadOrder (a.requiredClasses known))
  skipped : ∀ a ∈ m.applications, a.name ∉ built → m.generated.contains a.name = true ∧
    ∀ c ∈ m.analyser.loadOrder (a.requiredClasses known), m.analyser.recent.contains c = false
  resolved : ∀ a ∈ m.applications, ∃ b ∈ m.applications, b.name = a.name ∧
    m'.appClasses.get? a.name =
      some (NameSet.ofNames (m.analyser.loadOrder (b.requiredClasses known)))

theorem finished_of_finish {metadata : Metadata} {analysis : Analysis} {outcome : MakeOutcome}
    (h : (finish known resources metadata analysis).run s = (.ok outcome, s')) :
    Finished known s.maker s'.maker outcome.applicationsBuilt := by
  obtain ⟨_, s₁, hsave, hrest⟩ := exists_of_run_bind_ok h
  have hmaker := MakeM.maker_of_run_onFiles hsave
  rw [MakeM.run_get_bind] at hrest
  obtain ⟨_, s₂, hfingerprint, hrest⟩ := exists_of_run_bind_ok hrest
  have hmaker' := MakeM.maker_of_run_onFiles hfingerprint
  simp only [MakeM.run_update_bind, MakeM.run_get_bind] at hrest
  split at hrest
  · obtain ⟨catalogs, _, hpure, hrest⟩ := exists_of_run_bind_ok hrest
    cases hpure
    obtain ⟨built, s₃, hbuilt, hend⟩ := exists_of_run_bind_ok hrest
    cases hend
    obtain ⟨hwrote, hwritten, hskipped⟩ := wrote_of_makeApplications hbuilt
    have hresolved := appClasses_of_makeApplications hbuilt
    rw [hmaker', hmaker] at hwrote hwritten hskipped hresolved
    refine ⟨hwrote.analyser, hwrote.applications, hwrote.generated, hwritten, hskipped, fun a ha => ?_⟩
    exact (hresolved a.name).resolve_left fun h => h.2 a ha rfl
  · obtain ⟨_, _, hthrow, -⟩ := exists_of_run_bind_ok hrest
    cases hthrow

structure Kept (m m' : Maker) : Prop where
  applications : m'.applications = m.applications
  appClasses : m'.appClasses = m.appClasses
  generated : ∀ n, m'.generated.contains n = true → m.generated.contains n = true
  recent : (∀ n, m.analyser.recent.contains n = true → m'.analyser.recent.contains n = true) ∨
    ∀ n, m'.generated.contains n = false

theorem Kept.refl (m : Maker) : m.Kept m := ⟨rfl, rfl, fun _ hn => hn, .inl fun _ hn => hn⟩

theorem kept_of_begin {erased : Bool} (h : (begin known).run s = (.ok erased, s')) :
    Kept s.maker s'.maker := by
  simp only [begin, MakeM.run_get_bind] at h
  split at h
  · obtain ⟨_, s₁, herase, hrest⟩ := exists_of_run_bind_ok h
    have hmaker := MakeM.maker_of_run_onFiles herase
    cases hrest
    have happlications : s₁.maker.applications = s.maker.applications :=
      congrArg Maker.applications hmaker
    have happClasses : s₁.maker.appClasses = s.maker.appClasses := congrArg Maker.appClasses hmaker
    refine ⟨happlications, happClasses, fun n hn => ?_, .inr fun n => rfl⟩
    cases hn
  · cases h
    exact ⟨rfl, rfl, fun n hn => hn, .inl fun n hn => hn⟩

/-! ### Makes that fail -/

theorem maker_of_begin_error (h : (begin known).run s = (.error e, s')) : s'.maker = s.maker := by
  simp only [begin, MakeM.run_get_bind] at h
  split at h
  · obtain herase | ⟨_, _, -, hrest⟩ := cases_of_run_bind_error h
    · exact MakeM.maker_of_run_onFiles herase
    · cases hrest
  · cases h

theorem writing_of_makeApplication_error
    (h : (makeApplication known resources catalogs recent a).run s = (.error e, s')) :
    .writingApplication a.name s.maker.target.name ∈ s'.events := by
  simp only [makeApplication, MakeM.run_get_bind, MakeM.run_update_bind] at h
  split at h
  · cases h
  · simp only [MakeM.run_emit_bind] at h
    obtain hgenerate | ⟨_, _, -, hrest⟩ := cases_of_run_bind_error h
    · rw [MakeM.events_of_run_onFiles hgenerate]
      exact List.mem_append_right _ (List.mem_singleton_self _)
    · cases hrest

theorem writing_of_makeApplications_error
    (h : (makeApplications known resources catalogs recent apps).run s = (.error e, s')) :
    ∃ name target, .writingApplication name target ∈ s'.events := by
  induction apps generalizing s with
  | nil => cases h
  | cons a apps ih =>
    obtain hfirst | ⟨_, _, -, hrest⟩ := cases_of_run_bind_error h
    · exact ⟨_, _, writing_of_makeApplication_error hfirst⟩
    · obtain hothers | ⟨_, _, -, hend⟩ := cases_of_run_bind_error hrest
      · exact ih hothers
      · cases hend

/-- A make has failed after it had taken the classes noted as compiled: while it wrote an application,
or when it loaded the catalogs. -/
def Interrupted (message : String) (reports : List Event) : Prop :=
  (∃ cause, message = (MakeError.catalog cause).message) ∨
    ∃ name target, .writingApplication name target ∈ reports

theorem kept_or_interrupted_of_finish {metadata : Metadata} {analysis : Analysis}
    (h : (finish known resources metadata analysis).run s = (.error e, s')) :
    s'.maker = s.maker ∨ Interrupted e.message s'.events := by
  obtain hsave | ⟨_, s₁, hsave, hrest⟩ := cases_of_run_bind_error h
  · exact .inl (MakeM.maker_of_run_onFiles hsave)
  have hmaker := MakeM.maker_of_run_onFiles hsave
  rw [MakeM.run_get_bind] at hrest
  obtain hfingerprint | ⟨_, s₂, hfingerprint, hrest⟩ := cases_of_run_bind_error hrest
  · exact .inl ((MakeM.maker_of_run_onFiles hfingerprint).trans hmaker)
  -- From here on the classes are taken.
  right
  simp only [MakeM.run_update_bind, MakeM.run_get_bind] at hrest
  split at hrest
  · obtain hpure | ⟨_, _, hpure, hrest⟩ := cases_of_run_bind_error hrest
    · cases hpure
    cases hpure
    obtain hbuilt | ⟨_, _, -, hend⟩ := cases_of_run_bind_error hrest
    · exact .inr (writing_of_makeApplications_error hbuilt)
    · cases hend
  · next cause _ =>
    obtain hthrow | ⟨_, _, hthrow, -⟩ := cases_of_run_bind_error hrest
    · cases hthrow
      exact .inl ⟨cause, rfl⟩
    · cases hthrow

end Maker

/-- The end of a make: the classes that were known at its beginning, the build information of all its
classes, the classes compiled since the make before, and the applications it wrote. -/
structure Closing where
  known : List String
  classes : Table BuildInfo
  recent : NameSet
  built : List String

namespace Closing

variable {c c' : Closing} {a : Application} {m m' : Maker}

def order (c : Closing) (a : Application) : List String :=
  LoadOrder.ofRoots c.classes (LoadOrder.allNeeds c.classes) (a.requiredClasses c.known)

structure Closes (c : Closing) (m m' : Maker) : Prop where
  applications : m'.applications = m.applications
  recent : c.recent = m.analyser.recent
  generated : ∀ n, m'.generated.contains n = true → m.generated.contains n = true ∨ n ∈ c.built
  written : ∀ n ∈ c.built, ∃ a ∈ m.applications, a.name = n ∧
    Maker.Generated c.classes a (c.order a)
  skipped : ∀ a ∈ m.applications, a.name ∉ c.built → m.generated.contains a.name = true ∧
    ∀ n ∈ c.order a, c.recent.contains n = false
  resolved : ∀ a ∈ m.applications, ∃ b ∈ m.applications, b.name = a.name ∧
    m'.appClasses.get? a.name = some (NameSet.ofNames (c.order b))

theorem closes_of_finished {known built : List String} {m₁ : Maker} (hkept : m.Kept m₁)
    (hneeds : m₁.analyser.loadNeeds = LoadOrder.allNeeds m₁.analyser.classes)
    (hrecent : m₁.analyser.recent = m.analyser.recent ∨ ∀ n, m₁.analyser.classes.contains n = false)
    (h : Maker.Finished known m₁ m' built) :
    Closes { known, classes := m'.analyser.classes, recent := m.analyser.recent, built } m m' where
  applications := h.applications.trans hkept.applications
  recent := rfl
  generated n hn := (h.generated n hn).imp_left (hkept.generated n)
  written n hn := by
    obtain ⟨a, ha, hname, hgenerated⟩ := h.written n hn
    rw [hkept.applications] at ha
    refine ⟨a, ha, hname, ?_⟩
    rw [order, h.analyser, ← hneeds]
    exact hgenerated
  skipped a ha hnot := by
    rw [← hkept.applications] at ha
    obtain ⟨hgenerated, hskipped⟩ := h.skipped a ha hnot
    refine ⟨hkept.generated _ hgenerated, fun n hn => ?_⟩
    rw [order, h.analyser] at hn
    obtain hrecent | hempty := hrecent
    · rw [← hrecent]
      refine hskipped n ?_
      rw [Analyser.loadOrder, hneeds]
      exact hn
    · have hclass := LoadOrder.contains_of_mem_ofRoots hn
      rw [hempty n] at hclass
      cases hclass
  resolved a ha := by
    rw [← hkept.applications] at ha ⊢
    obtain ⟨b, hb, hname, hclasses⟩ := h.resolved a ha
    refine ⟨b, hb, hname, ?_⟩
    rw [hclasses, Analyser.loadOrder, hneeds, order, h.analyser]

end Closing

/-! ## Turns of a build -/

namespace Build

variable {b b' : Build} {i r : Nat} {m : Maker} {run : MakeRun} {known : List String}
  {resources : ResourceIndex} {e : Expansion}

theorem makers_updateMaker (b : Build) (j : Nat) (f : Maker → Maker) (i : Nat) :
    (b.updateMaker j f).makers[i]? = (b.makers[i]?).map fun m => if j = i then f m else m := by
  rw [updateMaker, List.getElem?_modify]
  rfl

theorem makers_stepCompile (b : Build) (t : CompileThread) :
    (b.stepCompile t).1.makers = b.makers := by
  rw [stepCompile]
  split
  · split <;> rfl
  · split <;> rfl
  · rfl

theorem makers_stepMake (b : Build) (t : MakeThread) : (b.stepMake t).1.makers = b.makers := by
  rcases b.stepMake_cases t with
    ⟨r, -, -, heq⟩ | ⟨-, -, heq⟩ | ⟨r, result, -, -, heq⟩ | ⟨r, result, -, heq⟩ | ⟨-, heq⟩ <;>
    rw [heq] <;> rfl

theorem makers_handle (b : Build) (change : ClassChange) : (b.handle change).1.makers = b.makers := by
  rw [handle]
  cases change.kind <;> rfl

theorem kept_of_jobEnd {job : CompileJob} {outcome : CompileOutcome} (hm : b.makers[i]? = some m)
    (hend : b.JobEnd job b' outcome) : ∃ m', b'.makers[i]? = some m' ∧ m.Kept m' := by
  cases hend with
  | failed _ makers => exact ⟨m, by rw [makers, hm], .refl m⟩
  | reused _ _ makers _ => exact ⟨m, by rw [makers, hm], .refl m⟩
  | compiled info makers =>
    rw [makers, List.getElem?_modify, hm]
    refine ⟨_, rfl, ?_⟩
    dsimp only
    split
    · exact ⟨rfl, rfl, fun _ hn => hn, .inl fun n hn => (Maker.contains_add ..).2 (.inr hn)⟩
    · exact .refl m

theorem kept_stepJob (hm : b.makers[i]? = some m) (j : Nat) :
    ∃ m', (b.stepJob j).makers[i]? = some m' ∧ m.Kept m' := by
  obtain ⟨heq, -⟩ | ⟨job, -, -, ⟨b', r, -, hmakers, -, heq⟩ | ⟨b', outcome, -, hend, heq⟩⟩ :=
    b.stepJob_turn j
  · exact ⟨m, by rw [heq, hm], .refl m⟩
  · exact ⟨m, by rw [heq, hmakers, hm], .refl m⟩
  · rw [heq, makers_finishJob]
    exact kept_of_jobEnd hm hend

theorem growRun_cases (b : Build) (r : Nat) (run : MakeRun) (m : Maker) (known : List String)
    (resources : ResourceIndex) (e : Expansion) :
    (e.frontier ≠ [] ∧ (b.growRun r run m known resources e).makers = b.makers ∧
      ∃ threads, (b.growRun r run m known resources e).runs =
        b.runs.set r { run with progress := .growing known resources e threads }) ∨
    (e.frontier = [] ∧ ∃ result s',
      (Maker.finish known resources b.metadata (m.analyser.conclude e).1).run
        { files := b.files, maker := { m with analyser := (m.analyser.conclude e).2 } } = (result, s') ∧
      (b.growRun r run m known resources e).makers = b.makers.modify run.maker (fun _ => s'.maker) ∧
      (b.growRun r run m known resources e).runs =
        b.runs.set r { run with progress := .done (result.mapError MakeError.message) }) := by
  rw [growRun]
  split
  · next hfrontier => exact .inr ⟨List.isEmpty_iff.1 hfrontier, _, _, rfl, rfl, rfl⟩
  · next hfrontier => exact .inl ⟨mt List.isEmpty_iff.2 hfrontier, rfl, _, rfl⟩

theorem growRun_of_finish (r : Nat) (run : MakeRun) {s' : Making}
    {result : Except MakeError MakeOutcome} (hfrontier : e.frontier = [])
    (hfinish : (Maker.finish known resources b.metadata (m.analyser.conclude e).1).run
      { files := b.files, maker := { m with analyser := (m.analyser.conclude e).2 } } = (result, s')) :
    b.growRun r run m known resources e = (b.wrote run.maker s').finishRun r run m result := by
  rw [growRun, if_pos (List.isEmpty_iff.2 hfrontier)]
  unfold concludeRun withMaker
  dsimp only
  rw [hfinish]
  rfl

def reportsSince (b' b : Build) : List Event := b'.events.drop b.events.length

theorem reportsSince_finishRun (b : Build) (s' : Making) (r : Nat) (run : MakeRun) (m : Maker)
    (result : Except MakeError MakeOutcome) :
    ∃ success, ((b.wrote i s').finishRun r run m result).reportsSince b =
      s'.events ++ [Event.makeFinished m.target.name success] := by
  have hevents : ∃ success, ((b.wrote i s').finishRun r run m result).events =
      (b.events ++ s'.events) ++ [Event.makeFinished m.target.name success] := ⟨_, rfl⟩
  obtain ⟨success, hevents⟩ := hevents
  exact ⟨success, by rw [reportsSince, hevents, List.append_assoc, List.drop_left]⟩

theorem runResult?_of_done {result : MakeResult} (hr : r < b.runs.length)
    (h : b'.runs = b.runs.set r { run with progress := .done result }) :
    b'.runResult? r = some result := by
  rw [runResult?, h, List.getElem?_set_self hr]

theorem runResult?_of_growing {threads : List CompileThread} (hr : r < b.runs.length)
    (h : b'.runs = b.runs.set r { run with progress := .growing known resources e threads }) :
    b'.runResult? r = none := by
  rw [runResult?, h, List.getElem?_set_self hr]

/-- What a step of a run does to its maker, and what is reported if the run fails. -/
inductive RunTurn (known : List String) (m m' : Maker) (reports : List Event) :
    Option MakeResult → Prop
  | going (kept : m.Kept m') : RunTurn known m m' reports none
  | failed (message : String) (kept : m.Kept m' ∨ Maker.Interrupted message reports) :
      RunTurn known m m' reports (some (.error message))
  | closed (outcome : MakeOutcome) (closes : Closing.Closes
      { known, classes := m'.analyser.classes, recent := m.analyser.recent,
        built := outcome.applicationsBuilt } m m') : RunTurn known m m' reports (some (.ok outcome))

theorem RunTurn.mono {m' : Maker} {reports reports' : List Event} {result : Option MakeResult}
    (h : RunTurn known m m' reports result) (hsub : reports ⊆ reports') :
    RunTurn known m m' reports' result := by
  cases h with
  | going kept => exact .going kept
  | failed message kept =>
    refine .failed message (kept.imp_right (Or.imp_right ?_))
    rintro ⟨name, target, hmem⟩
    exact ⟨name, target, hsub hmem⟩
  | closed outcome closes => exact .closed outcome closes

theorem runTurn_growRun {m₁ : Maker} (known : List String) (resources : ResourceIndex) (e : Expansion)
    (hr : r < b.runs.length) (hm₁ : b.makers[run.maker]? = some m₁) (hkept : m.Kept m₁)
    (hrecent : e.frontier = [] → m₁.analyser.recent = m.analyser.recent ∨ e.seen = []) :
    ∃ m', (b.growRun r run m₁ known resources e).makers[run.maker]? = some m' ∧
      RunTurn known m m' ((b.growRun r run m₁ known resources e).reportsSince b)
        ((b.growRun r run m₁ known resources e).runResult? r) := by
  obtain ⟨-, hmakers, threads, hruns⟩ | ⟨hfrontier, result, s', hfinish, hmakers, hruns⟩ :=
    b.growRun_cases r run m₁ known resources e
  · refine ⟨m₁, by rw [hmakers, hm₁], ?_⟩
    rw [runResult?_of_growing hr hruns]
    exact .going hkept
  · refine ⟨s'.maker, by rw [hmakers, List.getElem?_modify, hm₁]; simp, ?_⟩
    rw [runResult?_of_done hr hruns]
    have hconcluded : m.Kept { m₁ with analyser := (m₁.analyser.conclude e).2 } :=
      ⟨hkept.applications, hkept.appClasses, hkept.generated, hkept.recent⟩
    cases result with
    | error failure =>
      obtain ⟨success, hreports⟩ := reportsSince_finishRun b s' r run m₁ (.error failure)
      rw [← growRun_of_finish r run hfrontier hfinish] at hreports
      refine .failed _ ?_
      obtain hmaker | hinterrupted := Maker.kept_or_interrupted_of_finish hfinish
      · left
        rw [hmaker]
        exact hconcluded
      · right
        rw [hreports]
        refine hinterrupted.imp_right ?_
        rintro ⟨name, target, hmem⟩
        exact ⟨name, target, List.mem_append_left _ hmem⟩
    | ok outcome =>
      have hfinished := Maker.finished_of_finish hfinish
      refine .closed outcome (Closing.closes_of_finished hconcluded rfl ?_ hfinished)
      -- A make that ends at once has no class, so what was compiled before it does not matter.
      refine (hrecent hfrontier).imp id fun hseen n => ?_
      have hnone : ((m₁.analyser.conclude e).2.classes).get? n = none := by
        rw [Analyser.conclude, LoadOrder.get?_restrict, hseen]
        rfl
      rw [Table.contains, hnone]
      rfl

def knownTo (b : Build) (run : MakeRun) : List String :=
  match run.progress with
  | .growing known _ _ _ => known
  | _ => b.metadata.classnames

theorem makers_wrote (hm : b.makers[i]? = some m) (s : Making) :
    (b.wrote i s).makers[i]? = some s.maker :=
  (makers_updateMaker b i _ i).trans (by rw [hm, Option.map_some, if_pos rfl])

theorem runTurn_beginRun (hm : b.makers[run.maker]? = some m) (hr : r < b.runs.length) :
    ∃ m', (b.beginRun r run m).makers[run.maker]? = some m' ∧
      RunTurn b.metadata.classnames m m' ((b.beginRun r run m).reportsSince b)
        ((b.beginRun r run m).runResult? r) := by
  obtain ⟨_, s, hbegin, ⟨e, rfl, heq⟩ | ⟨erased, m', resources, rfl, hm', heq⟩⟩ :=
    b.beginRun_cases r run m
  · rw [heq, runResult?_of_done hr rfl]
    refine ⟨s.maker, makers_wrote hm s, ?_⟩
    rw [Maker.maker_of_begin_error hbegin]
    exact .failed _ (.inl (.refl m))
  · have hm₁ : (b.began run m s erased).makers[run.maker]? = some s.maker := makers_wrote hm s
    rw [hm₁, Option.getD_some] at hm'
    subst hm'
    have hreports (b' : Build) : b'.reportsSince (b.began run m s erased) ⊆ b'.reportsSince b := by
      have hle : b.events.length ≤ (b.began run m s erased).events.length := by
        simp [began, wrote, emit]
      exact (List.drop_sublist_drop_left _ hle).subset
    obtain ⟨m', hm', hturn⟩ := runTurn_growRun (b := b.began run m s erased) _ resources
      (s.maker.analyser.begin b.classes.contains) hr hm₁ (Maker.kept_of_begin hbegin) .inr
    rw [heq]
    exact ⟨m', hm', hturn.mono (hreports _)⟩

theorem runTurn_stepRun (hm : b.makers[run.maker]? = some m) (hrun : b.runs[r]? = some run)
    (hopen : run.isDone = false) :
    ∃ m', (b.stepRun r).makers[run.maker]? = some m' ∧
      RunTurn (b.knownTo run) m m' ((b.stepRun r).reportsSince b) ((b.stepRun r).runResult? r) := by
  have hr : r < b.runs.length := (List.getElem?_eq_some_iff.1 hrun).1
  rw [stepRun, hrun]
  dsimp only
  rw [hm]
  cases hprogress : run.progress with
  | fresh =>
    have hknown : b.knownTo run = b.metadata.classnames := by rw [knownTo, hprogress]
    rw [hknown]
    exact runTurn_beginRun hm hr
  | growing known resources e threads =>
    have hknown : b.knownTo run = known := by rw [knownTo, hprogress]
    rw [hknown]
    dsimp only
    cases hresults : results? threads with
    | none =>
      refine ⟨m, hm, ?_⟩
      rw [runResult?, hrun]
      obtain ⟨maker, progress⟩ := run
      cases hprogress
      exact .going (.refl m)
    | some results =>
      have hm₁ := makers_updateMaker b run.maker
        (fun _ => { m with analyser := m.analyser.keep results }) run.maker
      rw [hm, Option.map_some, if_pos rfl] at hm₁
      exact runTurn_growRun known resources _ hr hm₁
        ⟨rfl, rfl, fun _ hn => hn, .inl fun _ hn => hn⟩ fun _ => .inl rfl
  | done result =>
    simp [MakeRun.isDone, hprogress] at hopen

/-! ### Runs of other makers -/

theorem makers_updateMaker_of_ne {j : Nat} (hne : j ≠ i) (f : Maker → Maker) :
    (b.updateMaker j f).makers[i]? = b.makers[i]? := by
  rw [makers_updateMaker]
  cases b.makers[i]? <;> simp [hne]

theorem makers_growRun_of_ne (hne : run.maker ≠ i) :
    (b.growRun r run m known resources e).makers[i]? = b.makers[i]? := by
  obtain ⟨-, hmakers, -⟩ | ⟨-, result, s', -, hmakers, -⟩ := b.growRun_cases r run m known resources e
  · rw [hmakers]
  · rw [hmakers]
    exact makers_updateMaker_of_ne hne _

theorem makers_beginRun_of_ne (hne : run.maker ≠ i) :
    (b.beginRun r run m).makers[i]? = b.makers[i]? := by
  obtain ⟨_, s, -, ⟨e, -, heq⟩ | ⟨erased, m', resources, -, -, heq⟩⟩ := b.beginRun_cases r run m
  · rw [heq]
    exact makers_updateMaker_of_ne hne _
  · rw [heq, makers_growRun_of_ne hne]
    exact makers_updateMaker_of_ne hne _

theorem makers_stepRun_of_ne (hrun : b.runs[r]? = some run) (hne : run.maker ≠ i) :
    (b.stepRun r).makers[i]? = b.makers[i]? := by
  rw [stepRun, hrun]
  dsimp only
  split
  · rfl
  · exact makers_beginRun_of_ne hne
  · split
    · rfl
    · rw [makers_growRun_of_ne hne, makers_updateMaker_of_ne hne]
  · rfl

theorem stepRun_of_done (hrun : b.runs[r]? = some run) (hdone : run.isDone = true) :
    b.stepRun r = b := by
  obtain ⟨maker, progress⟩ := run
  cases progress with
  | fresh | growing => cases hdone
  | done result =>
    rw [stepRun, hrun]
    dsimp only
    split
    · next h => cases h
    · next h => cases h
    · next h => cases h
    · rfl

/-! ## Histories -/

namespace System

variable {s : System} {a : Action}

def ended? (i : Nat) (s : System) : Action → Option (MakeRun × MakeResult)
  | .run r =>
    match s.build.runs[r]?, (s.build.stepRun r).runResult? r with
    | some run, some result =>
      if run.maker = i ∧ run.isDone = false then some (run, result) else none
    | _, _ => none
  | _ => none

def make? (i : Nat) (s : System) (a : Action) : Option (Except String Closing) :=
  match ended? i s a, s.build.makers[i]?, (s.act a).build.makers[i]? with
  | some (run, result), some m, some m' =>
    some (result.map fun outcome =>
      { known := s.build.knownTo run, classes := m'.analyser.classes,
        recent := m.analyser.recent, built := outcome.applicationsBuilt })
  | _, _, _ => none

/-- The makes of a maker that end in a schedule, the last one first. -/
def makes (i : Nat) (s : System) : List Action → List (Except String Closing)
  | [] => []
  | a :: schedule => makes i (s.act a) schedule ++ (make? i s a).toList

theorem makes_append (i : Nat) (s : System) (before after : List Action) :
    makes i s (before ++ after) = makes i (before.foldl act s) after ++ makes i s before := by
  induction before generalizing s with
  | nil => exact (List.append_nil _).symm
  | cons a before ih => rw [List.cons_append, makes, ih, makes, List.foldl_cons, List.append_assoc]

def reports (s : System) (a : Action) : List Event := (s.act a).build.reportsSince s.build

inductive MakerTurn (m m' : Maker) (reports : List Event) : Option (Except String Closing) → Prop
  | kept (kept : m.Kept m') : MakerTurn m m' reports none
  | failed (message : String) (kept : m.Kept m' ∨ Maker.Interrupted message reports) :
      MakerTurn m m' reports (some (.error message))
  | closed (c : Closing) (closes : c.Closes m m') : MakerTurn m m' reports (some (.ok c))

theorem makerTurn_of_same (hended : ended? i s a = none) (hm : s.build.makers[i]? = some m)
    (h : (s.act a).build.makers[i]? = s.build.makers[i]?) :
    ∃ m', (s.act a).build.makers[i]? = some m' ∧ MakerTurn m m' (reports s a) (make? i s a) := by
  refine ⟨m, h.trans hm, ?_⟩
  rw [make?, hended]
  exact .kept (.refl m)

theorem makerTurn_run (hm : s.build.makers[i]? = some m) (r : Nat) :
    ∃ m', (s.act (.run r)).build.makers[i]? = some m' ∧
      MakerTurn m m' (reports s (.run r)) (make? i s (.run r)) := by
  cases hrun : s.build.runs[r]? with
  | none => exact makerTurn_of_same (by simp [ended?, hrun]) hm (by simp [act, stepRun, hrun])
  | some run =>
    by_cases hmine : run.maker = i ∧ run.isDone = false
    · obtain ⟨rfl, hopen⟩ := hmine
      obtain ⟨m', hm', hturn⟩ := runTurn_stepRun hm hrun hopen
      have hended : ended? run.maker s (.run r) =
          ((s.build.stepRun r).runResult? r).map fun result => (run, result) := by
        rw [ended?, hrun]
        cases (s.build.stepRun r).runResult? r <;> simp [hopen]
      have hact : (s.act (.run r)).build.makers[run.maker]? = some m' := hm'
      refine ⟨m', hact, ?_⟩
      rw [make?, hended, hm, hact]
      generalize (s.build.stepRun r).runResult? r = result at hturn
      cases hturn with
      | going kept => exact .kept kept
      | failed message kept => exact .failed message kept
      | closed outcome closes => exact .closed _ closes
    · refine makerTurn_of_same ?_ hm ?_
      · rw [ended?, hrun]
        cases (s.build.stepRun r).runResult? r <;> simp [hmine]
      · cases hdone : run.isDone with
        | true => rw [act, stepRun_of_done hrun hdone]
        | false => exact makers_stepRun_of_ne hrun fun hi => hmine ⟨hi, hdone⟩

theorem makerTurn_act (hm : s.build.makers[i]? = some m) (a : Action) :
    ∃ m', (s.act a).build.makers[i]? = some m' ∧ MakerTurn m m' (reports s a) (make? i s a) := by
  cases a with
  | run r => exact makerTurn_run hm r
  | job j =>
    obtain ⟨m', hm', hkept⟩ := kept_stepJob hm j
    exact ⟨m', hm', .kept hkept⟩
  | compile k =>
    refine makerTurn_of_same rfl hm ?_
    rw [act]
    split
    · rfl
    · exact congrArg (·[i]?) (makers_stepCompile ..)
  | compileIn r k =>
    refine makerTurn_of_same rfl hm ?_
    rw [act]
    split
    · split
      · rfl
      · exact congrArg (·[i]?) (makers_stepCompile ..)
    · rfl
  | make k =>
    refine makerTurn_of_same rfl hm ?_
    rw [act]
    split
    · rfl
    · exact congrArg (·[i]?) (makers_stepMake ..)
  | change change => exact makerTurn_of_same rfl hm (congrArg (·[i]?) (makers_handle ..))
  | askCompile | askMake | autoMake | edit => exact makerTurn_of_same rfl hm rfl

end System

end Build

end ClassForge
