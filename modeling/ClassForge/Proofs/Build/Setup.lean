import ClassForge.Proofs.Build.Makes

/-!
# What makers are set up for

A maker keeps its target and its applications, whatever becomes of its makes.
-/

namespace ClassForge

def Maker.setup (m : Maker) : Target × List Application := (m.target, m.applications)

namespace MakeM

variable {ε α β : Type} {x : MakeM α} {f : α → MakeM β}

def KeepsSetup (x : MakeM α) : Prop := ∀ s, (x.run s).2.maker.setup = s.maker.setup

namespace KeepsSetup

theorem bind (hx : x.KeepsSetup) (hf : ∀ a, (f a).KeepsSetup) : KeepsSetup (x >>= f) := by
  intro s
  cases hrun : x.run s with
  | mk outcome s₁ =>
    have hfirst := hx s
    rw [hrun] at hfirst
    cases outcome with
    | error e =>
      rw [run_bind_of_error hrun]
      exact hfirst
    | ok a =>
      rw [run_bind_of_ok hrun]
      exact (hf a s₁).trans hfirst

theorem pure (a : α) : KeepsSetup (pure a : MakeM α) := fun _ => rfl

theorem throw (e : MakeError) : KeepsSetup (throw e : MakeM α) := fun _ => rfl

theorem get : KeepsSetup (get : MakeM Making) := fun _ => rfl

theorem emit (e : Event) : KeepsSetup (emit e) := fun _ => rfl

theorem update {f : Maker → Maker} (hf : ∀ m, (f m).setup = m.setup) : KeepsSetup (update f) :=
  fun s => hf s.maker

theorem onFiles (a : FileM ε α) (wrap : ε → MakeError) : KeepsSetup (onFiles a wrap) := by
  intro s
  rw [run_onFiles]

end KeepsSetup

end MakeM

namespace Maker

open MakeM

variable (known : List String) (resources : ResourceIndex)

theorem keepsSetup_begin : (begin known).KeepsSetup := by
  refine .bind .get fun s => ?_
  dsimp only
  split
  · refine .bind (.onFiles _ _) fun _ => ?_
    refine .bind (.update fun m => rfl) fun _ => ?_
    refine .bind (.update fun m => rfl) fun _ => ?_
    exact .pure _
  · refine .bind (.update fun m => rfl) fun _ => ?_
    exact .pure _

theorem keepsSetup_makeApplication (catalogs : Table Catalog) (recent : NameSet) (a : Application) :
    (makeApplication known resources catalogs recent a).KeepsSetup := by
  refine .bind .get fun s => ?_
  refine .bind (.update fun m => rfl) fun _ => ?_
  split
  · exact .pure _
  · refine .bind (.emit _) fun _ => ?_
    refine .bind (.onFiles _ _) fun _ => ?_
    refine .bind (.update fun m => rfl) fun _ => ?_
    refine .bind (.emit _) fun _ => ?_
    exact .pure _

theorem keepsSetup_makeApplications (catalogs : Table Catalog) (recent : NameSet)
    (apps : List Application) :
    (makeApplications known resources catalogs recent apps).KeepsSetup := by
  induction apps with
  | nil => exact .pure _
  | cons a apps ih =>
    refine .bind (keepsSetup_makeApplication known resources catalogs recent a) fun _ => ?_
    refine .bind ih fun _ => ?_
    exact .pure _

theorem keepsSetup_finish (metadata : Metadata) (analysis : Analysis) :
    (finish known resources metadata analysis).KeepsSetup := by
  refine .bind (.onFiles _ _) fun _ => ?_
  refine .bind .get fun s => ?_
  refine .bind (.onFiles _ _) fun _ => ?_
  refine .bind (.update fun m => rfl) fun _ => ?_
  refine .bind .get fun s => ?_
  dsimp only
  split
  · refine .bind (.pure _) fun catalogs => ?_
    refine .bind (keepsSetup_makeApplications known resources catalogs _ _) fun _ => ?_
    exact .pure _
  · refine .bind (.throw _) fun catalogs => ?_
    refine .bind (keepsSetup_makeApplications known resources catalogs _ _) fun _ => ?_
    exact .pure _

end Maker

namespace Build

variable {b : Build} {i r : Nat} {m : Maker} {run : MakeRun}

def setups (b : Build) : List (Target × List Application) := b.makers.map Maker.setup

theorem setups_getElem? (b : Build) (i : Nat) : b.setups[i]? = (b.makers[i]?).map Maker.setup :=
  List.getElem?_map ..

theorem setups_of_makers {b' : Build} (h : b'.makers = b.makers) : b'.setups = b.setups :=
  congrArg (List.map Maker.setup) h

theorem exists_maker_of_setups {b' : Build} (h : b'.setups = b.setups) (hm : b.makers[i]? = some m) :
    ∃ m', b'.makers[i]? = some m' ∧ m'.setup = m.setup := by
  have hget := congrArg (·[i]?) h
  simp only [setups_getElem?, hm, Option.map_some] at hget
  exact Option.map_eq_some_iff.1 hget

theorem setups_updateMaker {f : Maker → Maker}
    (hf : ∀ m, b.makers[i]? = some m → (f m).setup = m.setup) : (b.updateMaker i f).setups = b.setups := by
  refine List.ext_getElem? fun k => ?_
  rw [setups_getElem?, setups_getElem?, updateMaker, List.getElem?_modify]
  by_cases hk : i = k
  · cases hm : b.makers[k]? with
    | none => rfl
    | some m => simp [hk, hf m (hk ▸ hm)]
  · simp [hk]

theorem setups_wrote {s : Making} (hs : s.maker.setup = m.setup)
    (hm : (b.makers[i]?).map Maker.setup = some m.setup) : (b.wrote i s).setups = b.setups := by
  refine setups_updateMaker (b := b) fun m' hm' => ?_
  rw [hm', Option.map_some, Option.some_inj] at hm
  exact hs.trans hm.symm

theorem setups_of_jobEnd {b' : Build} {job : CompileJob} {outcome : CompileOutcome}
    (hend : b.JobEnd job b' outcome) : b'.setups = b.setups := by
  cases hend with
  | failed _ makers => exact setups_of_makers makers
  | reused _ _ makers _ => exact setups_of_makers makers
  | compiled info makers =>
    rw [setups, makers]
    exact setups_updateMaker fun m _ => rfl

theorem setups_stepJob (b : Build) (j : Nat) : (b.stepJob j).setups = b.setups := by
  obtain ⟨heq, -⟩ | ⟨job, -, -, ⟨b', r, -, hmakers, -, heq⟩ | ⟨b', outcome, -, hend, heq⟩⟩ :=
    b.stepJob_turn j
  · rw [heq]
  · rw [heq]
    exact setups_of_makers hmakers
  · rw [heq, setups, makers_finishJob]
    exact setups_of_jobEnd hend

theorem setups_growRun {known : List String} {resources : ResourceIndex} {e : Expansion}
    (hm : (b.makers[run.maker]?).map Maker.setup = some m.setup) :
    (b.growRun r run m known resources e).setups = b.setups := by
  rw [growRun]
  split
  · exact setups_wrote (Maker.keepsSetup_finish known resources b.metadata _ _) hm
  · rfl

theorem setups_beginRun (hm : b.makers[run.maker]? = some m) :
    (b.beginRun r run m).setups = b.setups := by
  obtain ⟨result, s, hbegin, hcases⟩ := b.beginRun_cases r run m
  have hkept := Maker.keepsSetup_begin b.metadata.classnames { files := b.files, maker := m }
  rw [hbegin] at hkept
  have hsame : (b.wrote run.maker s).setups = b.setups := setups_wrote hkept (congrArg _ hm)
  obtain ⟨e, -, heq⟩ | ⟨erased, m', resources, -, hm', heq⟩ := hcases
  · rw [heq]
    exact hsame
  · have hbegan : (b.began run m s erased).setups = b.setups := hsame
    obtain ⟨m₁, hfound, -⟩ := exists_maker_of_setups hbegan hm
    rw [hfound] at hm'
    rw [heq, hm', Option.getD_some, setups_growRun (by rw [hfound, Option.map_some])]
    exact hsame

theorem setups_stepRun (b : Build) (r : Nat) : (b.stepRun r).setups = b.setups := by
  rw [stepRun]
  cases b.runs[r]? with
  | none => rfl
  | some run =>
    dsimp only
    cases hm : b.makers[run.maker]? with
    | none => cases run.progress <;> rfl
    | some m =>
      cases run.progress with
      | fresh => exact setups_beginRun hm
      | growing known resources e threads =>
        dsimp only
        cases results? threads with
        | none => rfl
        | some results =>
          have hsame : (b.updateMaker run.maker fun _ =>
              { m with analyser := m.analyser.keep results }).setups = b.setups :=
            setups_updateMaker fun m' hm' => by cases hm.symm.trans hm'; rfl
          dsimp only
          rw [setups_growRun, hsame]
          rw [← setups_getElem?, hsame, setups_getElem?, hm]
          rfl
      | done result => rfl

namespace System

theorem setups_act (s : System) (a : Action) : (s.act a).build.setups = s.build.setups := by
  cases a with
  | job j => exact setups_stepJob s.build j
  | run r => exact setups_stepRun s.build r
  | change change => exact setups_of_makers (makers_handle ..)
  | compile k =>
    rw [act]
    split
    · rfl
    · exact setups_of_makers (makers_stepCompile ..)
  | compileIn r k =>
    rw [act]
    split
    · split
      · rfl
      · exact setups_of_makers (makers_stepCompile ..)
    · rfl
  | make k =>
    rw [act]
    split
    · rfl
    · exact setups_of_makers (makers_stepMake ..)
  | askCompile | askMake | autoMake | edit => rfl

theorem setups_foldl_act (s : System) (schedule : List Action) :
    (schedule.foldl act s).build.setups = s.build.setups := by
  induction schedule generalizing s with
  | nil => rfl
  | cons a schedule ih => exact (ih (s.act a)).trans (s.setups_act a)

theorem exists_maker_foldl_act {s : System} (hm : s.build.makers[i]? = some m)
    (schedule : List Action) :
    ∃ m', (schedule.foldl act s).build.makers[i]? = some m' ∧ m'.setup = m.setup :=
  exists_maker_of_setups (setups_foldl_act s schedule) hm

end System

end Build

end ClassForge
