import ClassForge.Proofs.Build.Setup
import ClassForge.Proofs.Build.Skipping

/-!
# Compiled classes and failed makes

The classes compiled for a maker are noted until a make takes them, and the applications that have one
of them are written. A make that fails before it takes them forgets none. One that fails while it writes
applications has taken them already, and the next make knows nothing of them.
-/

namespace ClassForge

def Event.isCompile : Event → Bool
  | .compiledClass _ _ transpiled => transpiled
  | _ => false

def Event.written? : Event → Option String
  | .writtenApplication application _ => some application
  | _ => none

def Event.isWriting : Event → Bool
  | .writingApplication _ _ => true
  | _ => false

theorem Maker.interrupted_iff {message : String} {reports : List Event} :
    Interrupted message reports ↔
      message = (MakeError.catalog .tooManyForms).message ∨ reports.any Event.isWriting = true := by
  refine or_congr ⟨?_, fun h => ⟨_, h⟩⟩ ?_
  · rintro ⟨⟨⟩, h⟩
    exact h
  · rw [List.any_eq_true]
    constructor
    · rintro ⟨name, target, hmem⟩
      exact ⟨_, hmem, rfl⟩
    · rintro ⟨e, hmem, he⟩
      cases e with
      | writingApplication name target => exact ⟨name, target, hmem⟩
      | _ => cases he

instance (message : String) (reports : List Event) : Decidable (Maker.Interrupted message reports) :=
  decidable_of_iff _ Maker.interrupted_iff.symm

/-- What happens to the applications of a maker: a class is compiled, or a make fails or ends. -/
inductive Deed where
  | compiled (classname : String)
  | failed (message : String) (reports : List Event)
  | closed (c : Closing)

namespace Deed

def written : Deed → List String
  | compiled _ => []
  | failed _ reports => reports.filterMap Event.written?
  | closed c => c.built

/-- That a class of an application has been compiled may be forgotten: a make has failed after it had
taken the compiled classes, or one has ended when the class was not in the application. -/
def Forgets (a : Application) (n : String) : Deed → Prop
  | compiled _ => False
  | failed message reports => Maker.Interrupted message reports
  | closed c => n ∉ c.order a

end Deed

/-! ## Writing an application again -/

namespace Writing

variable {w : Writing} {a : Application} {n : String} {t : FileTree}

def taken (w : Writing) : Maker := { w.maker with analyser := w.maker.analyser.takeRecent.2 }

def generate (w : Writing) (a : Application) : Except OutputError Unit × FileTree :=
  (w.taken.target.generate (w.taken.bundleOf w.resources w.catalogs a
    (w.taken.analyser.loadOrder (a.requiredClasses w.known)))).run w.files

def HasCompiled (w : Writing) (a : Application) (n : String) : Prop :=
  n ∈ a.requiredClasses w.known ∧ w.maker.analyser.classes.contains n = true ∧
    w.maker.analyser.recent.contains n = true

instance (w : Writing) (a : Application) (n : String) : Decidable (w.HasCompiled a n) :=
  inferInstanceAs (Decidable (_ ∧ _ ∧ _))

theorem not_isUnchanged (h : w.HasCompiled a n) (times : Table UInt64) :
    w.taken.isUnchanged a.name (w.taken.analyser.loadOrder (a.requiredClasses w.known))
      w.maker.analyser.recent times = false := by
  obtain ⟨hroot, hclass, hrecent⟩ := h
  rw [Bool.eq_false_iff, Ne, Maker.isUnchanged_iff]
  rintro ⟨-, hnone, -⟩
  have hfalse := hnone n (LoadOrder.root_mem_ofRoots hroot hclass)
  rw [hrecent] at hfalse
  cases hfalse

def reported (w : Writing) (a : Application) : Making where
  files := w.files
  maker := { w.taken with
    appClasses := w.taken.appClasses.insert a.name
      (NameSet.ofNames (w.taken.analyser.loadOrder (a.requiredClasses w.known))) }
  events := [.writingApplication a.name w.taken.target.name]

theorem run_makeApplication (h : w.HasCompiled a n) {result : Except OutputError Unit}
    (hgenerate : w.generate a = (result, t)) :
    ∃ s', (Maker.makeApplication w.known w.resources w.catalogs w.maker.analyser.recent a).run
        { files := w.files, maker := w.taken } =
          ((result.map fun _ => true).mapError MakeError.output, s') ∧
      ∀ e, result = .error e → s' = { w.reported a with files := t } := by
  have honFiles : (MakeM.onFiles (w.taken.target.generate (w.taken.bundleOf w.resources w.catalogs a
      (w.taken.analyser.loadOrder (a.requiredClasses w.known)))) .output).run (w.reported a) =
        (result.mapError .output, { w.reported a with files := t }) := by
    have hrun := MakeM.run_onFiles (w.taken.target.generate (w.taken.bundleOf w.resources w.catalogs a
      (w.taken.analyser.loadOrder (a.requiredClasses w.known)))) .output (w.reported a)
    have hfiles : (w.reported a).files = w.files := rfl
    rw [hfiles] at hrun
    rw [generate] at hgenerate
    rw [hgenerate] at hrun
    exact hrun
  simp only [Maker.makeApplication, MakeM.run_get_bind, MakeM.run_update_bind, not_isUnchanged h,
    Bool.false_eq_true, if_false, MakeM.run_emit_bind]
  cases result with
  | error e => exact ⟨_, run_bind_of_error honFiles, fun _ _ => rfl⟩
  | ok u =>
    refine ⟨_, run_bind_of_ok honFiles, fun e he => ?_⟩
    cases he

theorem run_of_failure {e : OutputError} (happs : w.maker.applications = [a])
    (h : w.HasCompiled a n) (hgenerate : w.generate a = (.error e, t)) :
    w.run = (.error (.output e), { w.reported a with files := t }) := by
  obtain ⟨s', hrun, hs'⟩ := run_makeApplication h hgenerate
  rw [← hs' e rfl, run, happs]
  exact run_bind_of_error hrun

theorem run_of_success (happs : w.maker.applications = [a]) (h : w.HasCompiled a n)
    (hgenerate : w.generate a = (.ok (), t)) : ∃ s', w.run = (.ok [a.name], s') := by
  obtain ⟨s', hrun, -⟩ := run_makeApplication h hgenerate
  refine ⟨s', ?_⟩
  rw [run, happs]
  exact run_bind_of_ok hrun

/-- The end of the make, if it writes some applications. -/
def closing (w : Writing) (built : List String) : Closing where
  known := w.known
  classes := w.maker.analyser.classes
  recent := w.maker.analyser.recent
  built

theorem mem_order_closing (hroot : n ∈ a.requiredClasses w.known)
    (hclass : w.maker.analyser.classes.contains n = true) (built : List String) :
    n ∈ (w.closing built).order a := LoadOrder.root_mem_ofRoots hroot hclass

end Writing

namespace Build

variable {b : Build} {i j : Nat} {m : Maker} {job : CompileJob} {info : BuildInfo} {again : Bool}

/-! ## Compiled classes are noted -/

theorem outcome_of_finishJob {outcome : CompileOutcome} {result : CompileOutcome × Bool}
    (h : (b.finishJob j job outcome).jobResult? j = some result) (hj : j < b.jobs.length) :
    result.1 = outcome := by
  unfold finishJob jobResult? at h
  dsimp only at h
  rw [List.getElem?_set_self hj] at h
  cases h
  rfl

theorem noted_stepJob (hm : b.makers[job.maker]? = some m) (hjob : b.jobs[j]? = some job)
    (h : (b.stepJob j).jobResult? j = some (.ok info, again)) (hopen : job.isDone = false)
    (hcompiled : ((b.stepJob j).reportsSince b).any Event.isCompile = true) :
    ∃ m', (b.stepJob j).makers[job.maker]? = some m' ∧
      m'.analyser.recent.contains info.classname = true := by
  have hj : j < b.jobs.length := (List.getElem?_eq_some_iff.1 hjob).1
  obtain ⟨-, hdone⟩ | ⟨job', hjob', -, hturn⟩ := b.stepJob_turn j
  · obtain hdone | hnone := hdone job hjob
    · rw [hopen] at hdone
      cases hdone
    · rw [hm] at hnone
      cases hnone
  cases hjob.symm.trans hjob'
  obtain ⟨b', r, hworking, -, -, heq⟩ | ⟨b', outcome, hworking, hend, heq⟩ := hturn
  · rw [← hworking.jobs] at hj
    rw [heq, jobResult?, List.getElem?_set_self hj] at h
    cases h
  · rw [← hworking.jobs] at hj
    rw [heq] at h hcompiled ⊢
    cases outcome_of_finishJob h hj
    cases hend with
    | reused _ target _ events =>
      have hreports : (b'.finishJob j job (.ok info)).reportsSince b =
          [.compiledClass job.classname target false] := by
        rw [reportsSince, events_finishJob, events, List.drop_left]
      rw [hreports] at hcompiled
      cases hcompiled
    | compiled _ makers =>
      rw [makers_finishJob, makers, List.getElem?_modify, hm]
      exact ⟨_, rfl, by simp [Analyser.noteCompiled, Maker.contains_add]⟩

namespace System

variable {s : System} {a : Action} {app : Application} {n : String}

/-! ## Histories of a maker -/

def compiled? (i : Nat) (s : System) : Action → Option String
  | .job j =>
    match s.build.jobs[j]?, (s.build.stepJob j).jobResult? j with
    | some job, some (.ok info, _) =>
      if job.maker = i ∧ job.isDone = false ∧ (reports s (.job j)).any Event.isCompile = true then
        some info.classname
      else none
    | _, _ => none
  | _ => none

def deed? (i : Nat) (s : System) (a : Action) : Option Deed :=
  match make? i s a with
  | some (.ok c) => some (.closed c)
  | some (.error message) => some (.failed message (reports s a))
  | none => (compiled? i s a).map .compiled

/-- What happens to the applications of a maker in a schedule, the last first. -/
def deeds (i : Nat) (s : System) : List Action → List Deed
  | [] => []
  | a :: schedule => deeds i (s.act a) schedule ++ (deed? i s a).toList

theorem deeds_append (i : Nat) (s : System) (before after : List Action) :
    deeds i s (before ++ after) = deeds i (before.foldl act s) after ++ deeds i s before := by
  induction before generalizing s with
  | nil => exact (List.append_nil _).symm
  | cons a before ih => rw [List.cons_append, deeds, ih, deeds, List.foldl_cons, List.append_assoc]

theorem exists_turn_of_deeds {schedule : List Action} (later : List Deed) {earlier : List Deed} {d : Deed}
    (h : deeds i s schedule = later ++ d :: earlier) :
    ∃ before a after, schedule = before ++ a :: after ∧
      deed? i (before.foldl act s) a = some d ∧ deeds i s before = earlier ∧
      deeds i ((before.foldl act s).act a) after = later := by
  induction schedule generalizing s earlier with
  | nil =>
    obtain ⟨-, hnil⟩ := List.nil_eq_append_iff.1 h
    cases hnil
  | cons a schedule ih =>
    rw [deeds] at h
    cases hdeed : deed? i s a with
    | none =>
      rw [hdeed, Option.toList_none, List.append_nil] at h
      obtain ⟨before, a', after, rfl, hturn, hearlier, hlater⟩ := ih h
      refine ⟨a :: before, a', after, rfl, hturn, ?_, hlater⟩
      rw [deeds, hdeed, Option.toList_none, List.append_nil, hearlier]
    | some d' =>
      rw [hdeed, Option.toList_some] at h
      obtain rfl | ⟨earlier, first, rfl⟩ := List.eq_nil_or_concat earlier
      · obtain ⟨hlater, hd⟩ := List.append_inj' h rfl
        cases hd
        exact ⟨[], a, schedule, rfl, hdeed, rfl, hlater⟩
      · rw [List.concat_eq_append, ← List.cons_append, ← List.append_assoc] at h
        obtain ⟨hrest, hd⟩ := List.append_inj' h rfl
        cases hd
        obtain ⟨before, a', after, rfl, hturn, hearlier, hlater⟩ := ih hrest
        refine ⟨a :: before, a', after, rfl, hturn, ?_, hlater⟩
        rw [deeds, hdeed, hearlier, List.concat_eq_append]
        rfl

theorem noted_of_compiled (hm : s.build.makers[i]? = some m) (h : compiled? i s a = some n) :
    ∃ m', (s.act a).build.makers[i]? = some m' ∧ m'.analyser.recent.contains n = true := by
  cases a with
  | job j =>
    rw [compiled?] at h
    split at h
    · next job info again hjob hresult =>
      split at h
      · next hmine =>
        obtain ⟨rfl, hopen, hcompiled⟩ := hmine
        cases h
        exact noted_stepJob hm hjob hresult hopen hcompiled
      · cases h
    · cases h
  | _ => cases h

def Owed (m : Maker) (app : Application) (n : String) : Prop :=
  m.generated.contains app.name = true → m.analyser.recent.contains n = true

theorem Owed.of_kept {m m' : Maker} (h : Owed m app n) (hkept : m.Kept m') : Owed m' app n := by
  intro hgenerated
  obtain hrecent | hforgotten := hkept.recent
  · exact hrecent n (h (hkept.generated _ hgenerated))
  · rw [hforgotten] at hgenerated
    cases hgenerated

theorem Owed.written {m m' : Maker} {c : Closing} (h : Owed m app n) (closes : c.Closes m m')
    (happ : app ∈ m.applications) (hn : n ∈ c.order app) : app.name ∈ c.built := by
  by_contra hskipped
  obtain ⟨hgenerated, hrecent⟩ := closes.skipped app happ hskipped
  have hnone := hrecent n hn
  rw [closes.recent, h hgenerated] at hnone
  cases hnone

theorem Owed.turn (h : Owed m app n) (hm : s.build.makers[i]? = some m)
    (happ : app ∈ m.applications)
    (hdeed : ∀ d ∈ deed? i s a, app.name ∉ d.written ∧ ¬ d.Forgets app n) :
    ∃ m', (s.act a).build.makers[i]? = some m' ∧ app ∈ m'.applications ∧ Owed m' app n := by
  obtain ⟨m', hm', hturn⟩ := makerTurn_act hm a
  refine ⟨m', hm', ?_⟩
  rw [deed?] at hdeed
  generalize make? i s a = result at hturn hdeed
  cases hturn with
  | kept kept => exact ⟨kept.applications ▸ happ, h.of_kept kept⟩
  | failed message kept =>
    obtain kept | hinterrupted := kept
    · exact ⟨kept.applications ▸ happ, h.of_kept kept⟩
    · exact absurd hinterrupted (hdeed _ rfl).2
  | closed c closes =>
    obtain ⟨hnot, hmem⟩ := hdeed _ rfl
    exact absurd (h.written closes happ (not_not.1 hmem)) hnot

theorem Owed.turns (h : Owed m app n) (hm : s.build.makers[i]? = some m)
    (happ : app ∈ m.applications) {schedule : List Action}
    (hdeeds : ∀ d ∈ deeds i s schedule, app.name ∉ d.written ∧ ¬ d.Forgets app n) :
    ∃ m', (schedule.foldl act s).build.makers[i]? = some m' ∧ app ∈ m'.applications ∧
      Owed m' app n := by
  induction schedule generalizing s m with
  | nil => exact ⟨m, hm, happ, h⟩
  | cons a schedule ih =>
    obtain ⟨hlater, hnow⟩ := List.forall_mem_append.1 hdeeds
    obtain ⟨m', hm', happ', h'⟩ := h.turn hm happ fun d hd => hnow d (Option.mem_toList.2 hd)
    exact ih h' hm' happ' hlater

theorem make?_of_closed {c : Closing} (h : deed? i s a = some (.closed c)) :
    make? i s a = some (.ok c) := by
  rw [deed?] at h
  split at h
  · next hmake =>
    cases h
    exact hmake
  · cases h
  · obtain ⟨_, -, hc⟩ := Option.map_eq_some_iff.1 h
    cases hc

theorem compiled?_of_compiled (h : deed? i s a = some (.compiled n)) : compiled? i s a = some n := by
  rw [deed?] at h
  split at h
  · cases h
  · cases h
  · obtain ⟨_, hcompiled, hn⟩ := Option.map_eq_some_iff.1 h
    cases hn
    exact hcompiled

/-! ## A make that cannot write -/

theorem deed?_of_writing {w : Writing} {names : List String} {s' : Making} {r : Nat}
    (h : s.build.writing? i r = some w) (hrun : w.run = (.ok names, s')) :
    deed? i s (.run r) = some (.closed (w.closing names)) := by
  have hanalyser := (Maker.wrote_of_makeApplications hrun).1.analyser
  rw [deed?, (make?_of_writing h hrun).1, hanalyser]
  rfl

/-- The state after the last turn of a make that cannot write its only application, though a class of
it has been compiled. -/
def blocked? (s : System) (i r : Nat) (app : Application) (n : String) : Option System :=
  match s.build.writing? i r, s.build.runs[r]?, s.build.makers[i]? with
  | some w, some run, some m =>
    match w.generate app with
    | (.error e, t) =>
      if w.maker.applications = [app] ∧ w.HasCompiled app n then
        let b := s.build.wrote i { w.reported app with files := t }
        some { s with build := b.finishRun r run m (.error (.output e)) }
      else none
    | _ => none
  | _, _, _ => none

theorem act_of_blocked {s' : System} {r : Nat} (h : s.blocked? i r app n = some s') :
    s.act (.run r) = s' ∧ ∃ message reports, deed? i s (.run r) = some (.failed message reports) ∧
      app.name ∉ (Deed.failed message reports).written := by
  unfold blocked? at h
  split at h
  · next w run m hw hrun hm =>
    split at h
    · next e t hgenerate =>
      split at h
      · next hcompiled =>
        cases h
        have hfails := Writing.run_of_failure hcompiled.1 hcompiled.2 hgenerate
        obtain ⟨hmake, target, success, hreports⟩ := make?_of_writing hw hfails
        obtain ⟨run', m', outcome, hrun', -, -, -, hm', -, -, hstep⟩ := stepRun_of_writing hw hfails
        cases hrun.symm.trans hrun'
        cases hm.symm.trans hm'
        refine ⟨by rw [act, hstep]; rfl, _, _, by rw [deed?, hmake]; rfl, ?_⟩
        rw [hreports]
        exact List.not_mem_nil
      · cases h
    · cases h
  · cases h

def rewritten? (n : String) : List Deed → Option Closing
  | [.compiled n₁, .closed w, .compiled n₂] => if n₁ = n ∧ n₂ = n then some w else none
  | _ => none

theorem eq_of_rewritten {l : List Deed} {w : Closing} (h : rewritten? n l = some w) :
    l = [.compiled n, .closed w, .compiled n] := by
  rw [rewritten?.eq_def] at h
  split at h
  · split at h
    · next heq =>
      obtain ⟨rfl, rfl⟩ := heq
      cases h
      rfl
    · cases h
  · cases h

def failure? : List Deed → Option (String × List Event)
  | [.failed message reports] => some (message, reports)
  | _ => none

theorem eq_of_failure {l : List Deed} {f : String × List Event} (h : failure? l = some f) :
    l = [.failed f.1 f.2] := by
  rw [failure?.eq_def] at h
  split at h
  · cases h
    rfl
  · cases h

def plainApp : Application := { mainClass := "a.A" }

def plainMaker : Maker :=
  Maker.new { kind := .source, config := { kind := "source", outputPath := ⟨"/o"⟩ } } [plainApp] {} []
    ⟨"/"⟩ true

def plain : System :=
  System.start { FileTree.put {} ["A.js"] (.file "1" 1) with now := 2 }
    { transformer := .passthrough, engine := .inline {} }
    { rootDir := ⟨"/m"⟩
      records := .ofList [("a.A", { (default : ClassRecord) with classname := "a.A" })]
      files := .ofList [("/A.js", "a.A")] }
    (.ofList [("a.A", ⟨"/A.js"⟩)]) [plainMaker]

/-- A make writes the application, and its class is compiled again. -/
def recompiled : List Action :=
  [.askMake 0 false, .make 0, .run 0, .compileIn 0 0, .job 0, .compileIn 0 0, .run 0, .make 0,
    .askCompile 0 "a.A" true, .compile 0, .job 1, .compile 0]

/-- The turns of a make that finds its classes compiled, up to its last one, with given files. -/
def makeAgain (r : Nat) (files : FileTree) : List Action :=
  [.edit files, .askMake 0 false, .make r, .run r, .compileIn r 0]

/-- A file lies where the directory of the application is to be. -/
def noRoom : FileTree := FileTree.put {} ["a", "o"] (.file "" 1)

/-- A file lies where the directory of the metadata is to be. -/
def noStore : FileTree := FileTree.put {} ["m"] (.file "" 1)

-- both failures come after the same make and the same compile
theorem recompiled_plain :
    ((rewritten? "a.A" (deeds 0 plain recompiled)).any
       (fun w => decide (plainApp.name ∈ w.built)) = true ∧
     (failure? (deeds 0 (recompiled.foldl act plain)
       (makeAgain 1 noStore ++ .run 1 :: .make 1 :: makeAgain 2 {}))).any
         (fun f => decide (plainApp.name ∉ (Deed.failed f.1 f.2).written ∧
           ¬ Maker.Interrupted f.1 f.2)) = true ∧
     (((makeAgain 1 noStore ++ .run 1 :: .make 1 :: makeAgain 2 {}).foldl act
       (recompiled.foldl act plain)).build.writing? 0 2).any
         (fun w => decide (w.maker.applications = [plainApp] ∧ w.HasCompiled plainApp "a.A" ∧
           (w.generate plainApp).1.isOk = true)) = true) ∧
    ((rewritten? "a.A" (deeds 0 plain (recompiled ++ makeAgain 1 noRoom))).any
       (fun w => decide (plainApp.name ∈ w.built)) = true ∧
     (((recompiled ++ makeAgain 1 noRoom).foldl act plain).blocked? 0 1 plainApp "a.A").any
       (fun s => (deeds 0 s (.make 1 :: makeAgain 2 {})).isEmpty &&
         (((Action.make 1 :: makeAgain 2 {}).foldl act s).build.writing? 0 2).any (fun v =>
           decide (v.maker.analyser.recent = .empty ∧
             (∀ a ∈ v.maker.applications, v.maker.IsWritten v.files a) ∧
             "a.A" ∈ plainApp.requiredClasses v.known ∧
             v.maker.analyser.classes.contains "a.A" = true))) = true) := by
  decide +kernel

/-- An application with a class that was compiled since the application was last written is written by
the next make that ends, if nothing has been forgotten since. -/
theorem recompiled_written {m : Maker} {schedule : List Action} {c : Closing} {since before : List Deed}
    (hm : s.build.makers[i]? = some m) (happ : app ∈ m.applications)
    (hdeeds : deeds i s schedule = .closed c :: (since ++ .compiled n :: before))
    (hn : n ∈ c.order app)
    (hsince : ∀ d ∈ since, app.name ∉ d.written ∧ ¬ d.Forgets app n) : app.name ∈ c.built := by
  obtain ⟨turns, last, -, rfl, hlast, hearlier, -⟩ := exists_turn_of_deeds [] hdeeds
  obtain ⟨first, compile, turns, rfl, hcompile, -, hbetween⟩ := exists_turn_of_deeds since hearlier
  rw [List.foldl_append, List.foldl_cons] at hlast
  obtain ⟨m₁, hm₁, hsetup⟩ := exists_maker_foldl_act hm first
  obtain ⟨m₂, hm₂, hnoted⟩ := noted_of_compiled hm₁ (compiled?_of_compiled hcompile)
  have happ₂ : app ∈ m₂.applications := by
    obtain ⟨m', hm', hsetup'⟩ := exists_maker_foldl_act hm₁ [compile]
    cases hm₂.symm.trans hm'
    have happlications : m₂.applications = m.applications :=
      congrArg Prod.snd (hsetup'.trans hsetup)
    exact happlications ▸ happ
  have howed : Owed m₂ app n := fun _ => hnoted
  rw [← hbetween] at hsince
  obtain ⟨m₃, hm₃, happ₃, howed₃⟩ := howed.turns hm₂ happ₂ hsince
  obtain ⟨m₄, -, hturn⟩ := makerTurn_act hm₃ last
  rw [make?_of_closed hlast] at hturn
  cases hturn with
  | closed _ closes => exact howed₃.written closes happ₃ hn

/-- The make fails because the metadata cannot be saved. -/
theorem recompiled_written_unsaved :
    ∃ c w message reports, deeds 0 plain (recompiled ++ (makeAgain 1 noStore ++ .run 1 :: .make 1 ::
        makeAgain 2 {} ++ [.run 2])) =
          [.closed c, .failed message reports, .compiled "a.A", .closed w, .compiled "a.A"] ∧
      plainApp.name ∈ w.built ∧ "a.A" ∈ c.order plainApp ∧
      ¬ (Deed.failed message reports).Forgets plainApp "a.A" ∧ plainApp.name ∈ c.built := by
  obtain ⟨⟨hbefore, hfails, hlast⟩, -⟩ := recompiled_plain
  obtain ⟨w, hw, hbuilt⟩ := (Option.any_eq_true _ _).1 hbefore
  obtain ⟨f, hf, hkept⟩ := (Option.any_eq_true _ _).1 hfails
  obtain ⟨v, hv, hwrites⟩ := (Option.any_eq_true _ _).1 hlast
  obtain ⟨hunwritten, hkept⟩ := of_decide_eq_true hkept
  obtain ⟨happs, hcompiled, hok⟩ := of_decide_eq_true hwrites
  rcases hgenerate : v.generate plainApp with ⟨e | u, t⟩
  · rw [hgenerate] at hok
    cases hok
  obtain ⟨s', hrun⟩ := Writing.run_of_success happs hcompiled hgenerate
  have hdeeds : deeds 0 plain (recompiled ++ (makeAgain 1 noStore ++ Action.run 1 :: .make 1 ::
      makeAgain 2 {} ++ [Action.run 2])) = .closed (v.closing [plainApp.name]) ::
        ([Deed.failed f.1 f.2] ++ Deed.compiled "a.A" :: [Deed.closed w, .compiled "a.A"]) := by
    rw [deeds_append, deeds_append, eq_of_rewritten hw, eq_of_failure hf, deeds,
      deed?_of_writing hv hrun]
    rfl
  have horder := Writing.mem_order_closing hcompiled.1 hcompiled.2.1 [plainApp.name]
  refine ⟨_, w, f.1, f.2, hdeeds, of_decide_eq_true hbuilt, horder, hkept, ?_⟩
  refine recompiled_written (m := plainMaker) rfl List.mem_cons_self hdeeds horder fun d hd => ?_
  cases List.mem_singleton.1 hd
  exact ⟨hunwritten, hkept⟩

/-- The make fails because the application cannot be written, and the next one does not write it. -/
theorem recompiled_written_blocked :
    ∃ c w message reports, deeds 0 plain (recompiled ++ makeAgain 1 noRoom ++ .run 1 ::
        (.make 1 :: makeAgain 2 {} ++ [.run 2])) =
          [.closed c, .failed message reports, .compiled "a.A", .closed w, .compiled "a.A"] ∧
      plainApp.name ∈ w.built ∧ "a.A" ∈ c.order plainApp ∧
      plainApp.name ∉ (Deed.failed message reports).written ∧ plainApp.name ∉ c.built := by
  obtain ⟨-, hbefore, hends⟩ := recompiled_plain
  obtain ⟨w, hw, hbuilt⟩ := (Option.any_eq_true _ _).1 hbefore
  obtain ⟨s, hs, hends⟩ := (Option.any_eq_true _ _).1 hends
  obtain ⟨hact, message, reports, hfailed, hunwritten⟩ := act_of_blocked hs
  obtain ⟨hnothing, hlast⟩ := Bool.and_eq_true_iff.1 hends
  obtain ⟨v, hv, hquiet⟩ := (Option.any_eq_true _ _).1 hlast
  obtain ⟨hrecent, hwritten, hroot, hclass⟩ := of_decide_eq_true hquiet
  obtain ⟨s', hrun, -⟩ := v.run_of_isWritten hrecent hwritten
  have hdeeds : deeds 0 plain (recompiled ++ makeAgain 1 noRoom ++ Action.run 1 ::
      (Action.make 1 :: makeAgain 2 {} ++ [Action.run 2])) =
        [Deed.closed (v.closing []), .failed message reports, .compiled "a.A", .closed w, .compiled "a.A"] := by
    rw [deeds_append, eq_of_rewritten hw, deeds, hfailed, hact, deeds_append,
      List.isEmpty_iff.1 hnothing, deeds, deed?_of_writing hv hrun]
    rfl
  exact ⟨_, w, message, reports, hdeeds, of_decide_eq_true hbuilt,
    Writing.mem_order_closing hroot hclass [], hunwritten, List.not_mem_nil⟩

end System

end Build

end ClassForge
