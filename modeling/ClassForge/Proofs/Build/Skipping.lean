import ClassForge.Proofs.Build.Makes

/-!
# Applications that are skipped

A make writes an application again only if a class of its load order has been compiled since the make
before, or a local module has another time. So an application may be skipped though its load order is
not the one it was written with: a class may have left it. If whatever changes in an application has
been compiled and stays in it, the order is the same.
-/

namespace ClassForge

namespace Closing

variable {c c' : Closing} {a : Application}

def members (c : Closing) (a : Application) : Table BuildInfo :=
  c.classes.filter fun n _ => decide (n ∈ c.order a)

/-- The classes among them that the application asks for itself. -/
def roots (c : Closing) (a : Application) : List String :=
  (a.requiredClasses c.known).filter fun n => decide (n ∈ c.order a)

theorem order_eq (c : Closing) (a : Application) :
    c.order a = LoadOrder.ofRoots (c.members a) (LoadOrder.allNeeds (c.members a)) (c.roots a) :=
  LoadOrder.ofRoots_eq c.classes (a.requiredClasses c.known)

/-- Whatever has changed in an application since the make before has been compiled, and is in it. -/
def Follows (a : Application) (c before : Closing) : Prop :=
  ∀ n, (c.members a).get? n = (before.members a).get? n ∧ (n ∈ c.roots a ↔ n ∈ before.roots a) ∨
    n ∈ c.order a ∧ c.recent.contains n = true

theorem follows_of_same (hclasses : c.classes = c'.classes)
    (hrequired : a.requiredClasses c.known = a.requiredClasses c'.known) : c.Follows a c' := by
  have horder : c.order a = c'.order a := by rw [order, order, hclasses, hrequired]
  intro n
  left
  rw [members, members, roots, roots, horder, hclasses, hrequired]
  exact ⟨rfl, Iff.rfl⟩

theorem pairwise_sortedNames (l : List String) : (sortedNames l).Pairwise (· < ·) :=
  List.pairwise_map.2 (NameSet.ofNames l).sorted

theorem pairwise_roots (c : Closing) (a : Application) : (c.roots a).Pairwise (· < ·) :=
  ((pairwise_sortedNames _).sublist List.filter_sublist).sublist List.filter_sublist

theorem eq_of_pairwise_lt {l l' : List String} (hl : l.Pairwise (· < ·)) (hl' : l'.Pairwise (· < ·))
    (h : ∀ x, x ∈ l ↔ x ∈ l') : l = l' := by
  have hnodup {l : List String} (hl : l.Pairwise (· < ·)) : l.Nodup :=
    hl.imp fun {x y} (hlt : x < y) (heq : x = y) => String.lt_irrefl y (heq ▸ hlt)
  have hperm : l.Perm l' := (List.perm_ext_iff_of_nodup (hnodup hl) (hnodup hl')).2 h
  exact hperm.eq_of_pairwise (fun x y _ _ hxy hyx =>
    absurd (String.lt_trans hxy hyx) (String.lt_irrefl _)) hl hl'

theorem Follows.order_eq (h : c.Follows a c')
    (hrecent : ∀ n ∈ c.order a, c.recent.contains n = false) : c.order a = c'.order a := by
  have hsame (n : String) : (c.members a).get? n = (c'.members a).get? n ∧
      (n ∈ c.roots a ↔ n ∈ c'.roots a) := by
    obtain hsame | ⟨hmem, hcompiled⟩ := h n
    · exact hsame
    · rw [hrecent n hmem] at hcompiled
      cases hcompiled
  have hmembers : c.members a = c'.members a := Table.ext_get? fun n => (hsame n).1
  have hroots : c.roots a = c'.roots a :=
    eq_of_pairwise_lt (pairwise_roots c a) (pairwise_roots c' a) fun n => (hsame n).2
  rw [Closing.order_eq c, Closing.order_eq c', hmembers, hroots]

end Closing

/-! ## A make that finds nothing to write -/

namespace Maker

variable {s : Making} {known : List String} {resources : ResourceIndex} {catalogs : Table Catalog}
  {a : Application} {apps : List Application}

def IsWritten (m : Maker) (t : FileTree) (a : Application) : Prop :=
  m.generated.contains a.name = true ∧ m.moduleTimes.get? a.name = some (a.moduleTimes t m.projectDir)

instance (m : Maker) (t : FileTree) (a : Application) : Decidable (m.IsWritten t a) :=
  inferInstanceAs (Decidable (_ ∧ _))

theorem run_makeApplication_of_isWritten (h : s.maker.IsWritten s.files a) :
    ∃ appClasses, (makeApplication known resources catalogs .empty a).run s =
      (.ok false, { s with maker := { s.maker with appClasses } }) := by
  have hunchanged : s.maker.isUnchanged a.name (s.maker.analyser.loadOrder (a.requiredClasses known))
      .empty (a.moduleTimes s.files s.maker.projectDir) = true :=
    isUnchanged_iff.2 ⟨h.1, fun _ _ => rfl, h.2⟩
  simp only [makeApplication, MakeM.run_get_bind, if_pos hunchanged]
  exact ⟨_, rfl⟩

theorem run_makeApplications_of_isWritten (h : ∀ a ∈ apps, s.maker.IsWritten s.files a) :
    ∃ appClasses, (makeApplications known resources catalogs .empty apps).run s =
      (.ok [], { s with maker := { s.maker with appClasses } }) := by
  induction apps generalizing s with
  | nil => exact ⟨s.maker.appClasses, rfl⟩
  | cons a apps ih =>
    obtain ⟨hfirst, hrest⟩ := List.forall_mem_cons.1 h
    obtain ⟨first, hfirst⟩ := run_makeApplication_of_isWritten hfirst
    let s₁ : Making := { s with maker := { s.maker with appClasses := first } }
    have hothers : ∀ a ∈ apps, s₁.maker.IsWritten s₁.files a := hrest
    obtain ⟨appClasses, hothers⟩ := ih hothers
    refine ⟨appClasses, ?_⟩
    rw [makeApplications, run_bind_of_ok hfirst, run_bind_of_ok hothers]
    rfl

theorem run_finish {metadata : Metadata} {t t' : FileTree} {result : Except MakeError (List String)}
    {s' : Making} (known : List String) (resources : ResourceIndex) (analysis : Analysis)
    (hsave : metadata.save.run s.files = (.ok (), t))
    (hfingerprint : s.maker.analyser.saveFingerprint.run t = (.ok (), t'))
    (hcatalogs : Catalog.loadAll t' s.maker.libraries.toList s.maker.locales = .ok catalogs)
    (hwriting : (makeApplications known resources catalogs s.maker.analyser.recent
      s.maker.applications).run { s with
        files := t'
        maker := { s.maker with analyser := s.maker.analyser.takeRecent.2 } } = (result, s')) :
    ∃ outcome : List String → MakeOutcome, (∀ names, (outcome names).applicationsBuilt = names) ∧
      (finish known resources metadata analysis).run s = (result.map outcome, s') := by
  have hstore : (MakeM.onFiles metadata.save .store).run s = (.ok (), { s with files := t }) := by
    rw [MakeM.run_onFiles, hsave]
    rfl
  have houtput : (MakeM.onFiles s.maker.analyser.saveFingerprint .output).run { s with files := t } =
      (.ok (), { s with files := t' }) := by
    rw [MakeM.run_onFiles, hfingerprint]
    rfl
  refine ⟨fun applicationsBuilt => {
    success := analysis.success && !(s.maker.markers analysis).any Marker.isError
    hadWarnings := (s.maker.markers analysis).any fun k => !k.isError
    applicationsBuilt
    markers := s.maker.markers analysis }, fun _ => rfl, ?_⟩
  rw [finish, run_bind_of_ok hstore, MakeM.run_get_bind, run_bind_of_ok houtput]
  simp only [MakeM.run_update_bind, MakeM.run_get_bind, hcatalogs, pure_bind]
  cases result with
  | error e => exact run_bind_of_error hwriting
  | ok names => exact run_bind_of_ok hwriting

end Maker

/-- A make whose classes are all compiled, once everything is saved: it is about to write the
applications. -/
structure Writing where
  known : List String
  resources : ResourceIndex
  catalogs : Table Catalog
  files : FileTree
  maker : Maker

def Writing.run (w : Writing) : Except MakeError (List String) × Making :=
  (Maker.makeApplications w.known w.resources w.catalogs w.maker.analyser.recent
    w.maker.applications).run
    { files := w.files, maker := { w.maker with analyser := w.maker.analyser.takeRecent.2 } }

theorem Writing.run_of_isWritten (w : Writing) (hrecent : w.maker.analyser.recent = .empty)
    (h : ∀ a ∈ w.maker.applications, w.maker.IsWritten w.files a) :
    ∃ s', w.run = (.ok [], s') ∧ s'.maker.analyser = w.maker.analyser.takeRecent.2 := by
  obtain ⟨appClasses, hrun⟩ := Maker.run_makeApplications_of_isWritten
    (s := { files := w.files, maker := { w.maker with analyser := w.maker.analyser.takeRecent.2 } }) h
  rw [Writing.run, hrecent]
  exact ⟨_, hrun, rfl⟩

namespace Build

variable {b : Build} {i r : Nat} {w : Writing} {result : Except MakeError (List String)} {s' : Making}

def writing? (b : Build) (i r : Nat) : Option Writing :=
  match b.runs[r]?, b.makers[i]?, b.metadata.save.run b.files with
  | some { maker, progress := .growing known resources e threads }, some m, (.ok (), t) =>
    match results? threads with
    | some results =>
      let e := e.round b.classes.contains results
      let m := { m with analyser := ((m.analyser.keep results).conclude e).2 }
      match m.analyser.saveFingerprint.run t with
      | (.ok (), files) =>
        match Catalog.loadAll files m.libraries.toList m.locales with
        | .ok catalogs =>
          if maker = i ∧ e.frontier = [] then some { known, resources, catalogs, files, maker := m }
          else none
        | _ => none
      | _ => none
    | _ => none
  | _, _, _ => none

theorem cases_of_writing (h : b.writing? i r = some w) :
    ∃ e threads results m t, b.runs[r]? = some ⟨i, .growing w.known w.resources e threads⟩ ∧
      b.makers[i]? = some m ∧ results? threads = some results ∧
      (e.round b.classes.contains results).frontier = [] ∧
      w.maker = { m with analyser := ((m.analyser.keep results).conclude
        (e.round b.classes.contains results)).2 } ∧
      b.metadata.save.run b.files = (.ok (), t) ∧
      w.maker.analyser.saveFingerprint.run t = (.ok (), w.files) ∧
      Catalog.loadAll w.files w.maker.libraries.toList w.maker.locales = .ok w.catalogs := by
  unfold writing? at h
  split at h
  · next maker known resources e threads m t hfound hm hsave =>
    split at h
    · next results hresults =>
      dsimp only at h
      split at h
      · next files hfingerprint =>
        split at h
        · next catalogs hcatalogs =>
          split at h
          · next hlast =>
            obtain ⟨rfl, hfrontier⟩ := hlast
            cases h
            exact ⟨e, threads, results, m, t, hfound, hm, hresults, hfrontier, rfl, hsave,
              hfingerprint, hcatalogs⟩
          · cases h
        · cases h
      · cases h
    · cases h
  · cases h

theorem stepRun_of_writing (h : b.writing? i r = some w) (hrun : w.run = (result, s')) :
    ∃ run m outcome, b.runs[r]? = some run ∧ run.maker = i ∧ run.isDone = false ∧
      b.knownTo run = w.known ∧ b.makers[i]? = some m ∧
      m.analyser.recent = w.maker.analyser.recent ∧
      (∀ names, (outcome names).applicationsBuilt = names) ∧
      b.stepRun r = (b.wrote i s').finishRun r run m (result.map outcome) := by
  obtain ⟨e, threads, results, m, t, hfound, hm, hresults, hfrontier, hmaker, hsave, hfingerprint,
    hcatalogs⟩ := cases_of_writing h
  let run : MakeRun := ⟨i, .growing w.known w.resources e threads⟩
  let m₁ : Maker := { m with analyser := m.analyser.keep results }
  let e₁ := e.round b.classes.contains results
  have hstep : b.stepRun r =
      (b.updateMaker i fun _ => m₁).growRun r run m₁ w.known w.resources e₁ := by
    rw [stepRun, hfound]
    dsimp only
    rw [hm]
    dsimp only
    rw [hresults]
  obtain ⟨outcome, hbuilt, hfinish⟩ := Maker.run_finish (s := { files := b.files, maker := w.maker })
    w.known w.resources (m₁.analyser.conclude e₁).1 hsave hfingerprint hcatalogs hrun
  rw [hmaker] at hfinish
  have hwrote : ((b.updateMaker i fun _ => m₁).wrote i s') = b.wrote i s' := by
    rw [wrote, wrote, updateMaker, updateMaker, updateMaker, List.modify_modify_eq]
    rfl
  have hgrow := growRun_of_finish (b := b.updateMaker i fun _ => m₁) r run hfrontier hfinish
  rw [hwrote] at hgrow
  refine ⟨run, m, outcome, hfound, rfl, rfl, rfl, hm, ?_, hbuilt, hstep.trans hgrow⟩
  rw [hmaker]
  rfl

/-- The end of a make of a maker, if no class has been compiled since the make before and all
applications are as they were written. -/
def quietClosing? (b : Build) (i r : Nat) : Option Closing :=
  match b.runs[r]? with
  | some { maker, progress := .growing known _ e threads } =>
    match b.makers[i]?, results? threads, b.metadata.save.run b.files with
    | some m, some results, (.ok (), t) =>
      let e := e.round b.classes.contains results
      let analyser := ((m.analyser.keep results).conclude e).2
      match analyser.saveFingerprint.run t with
      | (.ok (), t') =>
        match Catalog.loadAll t' m.libraries.toList m.locales with
        | .ok _ =>
          if maker = i ∧ e.frontier = [] ∧ m.analyser.recent = .empty ∧
              ∀ a ∈ m.applications, m.IsWritten t' a then
            some { known, classes := analyser.classes, recent := .empty, built := [] }
          else none
        | _ => none
      | _ => none
    | _, _, _ => none
  | _ => none

namespace System

variable {s : System} {c : Closing}

theorem make?_of_writing (h : s.build.writing? i r = some w) (hrun : w.run = (result, s')) :
    make? i s (.run r) = some ((result.map fun built =>
        { known := w.known, classes := s'.maker.analyser.classes, recent := w.maker.analyser.recent,
          built }).mapError MakeError.message) ∧
      ∃ target success, reports s (.run r) = s'.events ++ [Event.makeFinished target success] := by
  obtain ⟨run, m, outcome, hfound, hmine, hopen, hknown, hm, hrecent, hbuilt, hstep⟩ :=
    stepRun_of_writing h hrun
  have hr : r < s.build.runs.length := (List.getElem?_eq_some_iff.1 hfound).1
  have hm' : (s.build.stepRun r).makers[i]? = some s'.maker := by
    have hmakers := makers_updateMaker s.build i (fun _ => s'.maker) i
    rw [hm, Option.map_some, if_pos rfl] at hmakers
    rw [hstep]
    exact hmakers
  have hresult : (s.build.stepRun r).runResult? r =
      some ((result.map outcome).mapError MakeError.message) := by
    rw [hstep]
    exact runResult?_of_done hr rfl
  constructor
  · have hact : (s.act (.run r)).build.makers[i]? = some s'.maker := hm'
    rw [make?, ended?, hfound, hresult]
    dsimp only
    rw [if_pos ⟨hmine, hopen⟩, hm, hact]
    dsimp only
    rw [hknown, hrecent]
    cases result with
    | error e => rfl
    | ok names =>
      have hnames : (outcome names).applicationsBuilt = names := hbuilt names
      simp only [Except.map, Except.mapError, hnames]
  · rw [reports, act, hstep]
    exact ⟨_, reportsSince_finishRun ..⟩

theorem make?_of_quietClosing (h : s.build.quietClosing? i r = some c) :
    make? i s (.run r) = some (.ok c) := by
  rw [quietClosing?] at h
  split at h
  · next maker known resources e threads hrun =>
    split at h
    · next m results t hm hresults hsave =>
      dsimp only at h
      split at h
      · next t' hfingerprint =>
        split at h
        · next catalogs hcatalogs =>
          split at h
          · next hquiet =>
            obtain ⟨rfl, hfrontier, hrecent, hwritten⟩ := hquiet
            cases h
            let w : Writing :=
              { known, resources, catalogs, files := t'
                maker := { m with analyser := ((m.analyser.keep results).conclude
                  (e.round s.build.classes.contains results)).2 } }
            have hw : s.build.writing? maker r = some w := by
              unfold writing?
              rw [hrun, hm, hsave]
              dsimp only
              rw [hresults]
              dsimp only
              rw [hfingerprint]
              dsimp only
              rw [hcatalogs]
              exact if_pos ⟨rfl, hfrontier⟩
            obtain ⟨s', hwriting, hanalyser⟩ := w.run_of_isWritten hrecent hwritten
            have hmake := (make?_of_writing hw hwriting).1
            rw [hanalyser] at hmake
            exact hrecent ▸ hmake
          · cases h
        · cases h
      · cases h
    · cases h
  · cases h

theorem makes_of_quietClosing {schedule : List Action}
    (h : (schedule.foldl act s).build.quietClosing? i r = some c) :
    makes i s (schedule ++ [Action.run r]) = .ok c :: makes i s schedule := by
  rw [makes_append, makes, make?_of_quietClosing h]
  rfl

def twoMakes? (i : Nat) (s : System) (schedule : List Action) (r : Nat) : Option (Closing × Closing) :=
  match (schedule.foldl act s).build.quietClosing? i r, makes i s schedule with
  | some c, [.ok w] => some (c, w)
  | _, _ => none

theorem makes_of_twoMakes {schedule : List Action} {w : Closing}
    (h : twoMakes? i s schedule r = some (c, w)) :
    makes i s (schedule ++ [Action.run r]) = [.ok c, .ok w] := by
  rw [twoMakes?] at h
  split at h
  · next hquiet hmakes =>
    cases h
    rw [makes_of_quietClosing hquiet, hmakes]
  · cases h

/-! ## Histories of makes -/

/-- In a history of makes, the last one first, applications are written from their load order, and one
that a make skips has been written before and has no class that was compiled since the make before. -/
def Accounted (apps : List Application) : List Closing → Prop
  | [] => True
  | c :: earlier => Accounted apps earlier ∧
      (∀ n ∈ c.built, ∃ a ∈ apps, a.name = n ∧ Maker.Generated c.classes a (c.order a)) ∧
      ∀ a ∈ apps, a.name ∉ c.built →
        (∃ w ∈ earlier, a.name ∈ w.built) ∧ ∀ n ∈ c.order a, c.recent.contains n = false

theorem accounted_makes {m : Maker} {earlier log : List Closing} (hm : s.build.makers[i]? = some m)
    (hwritten : ∀ n, m.generated.contains n = true → ∃ w ∈ earlier, n ∈ w.built)
    (hearlier : Accounted m.applications earlier) {schedule : List Action}
    (h : makes i s schedule = log.map .ok) : Accounted m.applications (log ++ earlier) := by
  -- The makes that are still to come stand before those that there have been.
  induction schedule generalizing s m earlier log with
  | nil =>
    cases List.map_eq_nil_iff.1 h.symm
    exact hearlier
  | cons a schedule ih =>
    obtain ⟨m', hm', hturn⟩ := makerTurn_act hm a
    obtain ⟨later, now, rfl, hlater, hnow⟩ := List.map_eq_append_iff.1 h.symm
    rw [List.append_assoc]
    cases hmake : make? i s a with
    | none =>
      rw [hmake] at hturn hnow
      cases List.map_eq_nil_iff.1 hnow
      cases hturn with
      | kept kept =>
        rw [← kept.applications] at hearlier ⊢
        exact ih hm' (fun n hn => hwritten n (kept.generated n hn)) hearlier hlater.symm
    | some result =>
      rw [hmake] at hturn hnow
      cases hturn with
      | failed message _ =>
        obtain ⟨c, rest, -, hc, -⟩ := List.map_eq_cons_iff.1 hnow
        cases hc
      | closed c closes =>
        obtain ⟨c', rest, rfl, hc, hrest⟩ := List.map_eq_cons_iff.1 hnow
        cases hc
        cases List.map_eq_nil_iff.1 hrest
        rw [← closes.applications]
        refine ih hm' (fun n hn => ?_) ⟨?_, ?_, ?_⟩ hlater.symm
        · obtain hn | hn := closes.generated n hn
          · obtain ⟨w, hw, hmem⟩ := hwritten n hn
            exact ⟨w, List.mem_cons_of_mem c hw, hmem⟩
          · exact ⟨c, List.mem_cons_self, hn⟩
        · rw [closes.applications]
          exact hearlier
        · rw [closes.applications]
          exact closes.written
        · rw [closes.applications]
          intro a ha hnot
          obtain ⟨hgenerated, hrecent⟩ := closes.skipped a ha hnot
          exact ⟨hwritten _ hgenerated, hrecent⟩

theorem Accounted.of_append {apps : List Application} {later log : List Closing}
    (h : Accounted apps (later ++ log)) : Accounted apps log := by
  induction later with
  | nil => exact h
  | cons c later ih => exact ih h.1

theorem Accounted.last_written {apps : List Application} {a : Application} {log : List Closing}
    (h : Accounted apps log) (ha : a ∈ apps) (hwritten : ∃ w ∈ log, a.name ∈ w.built) :
    ∃ (since : List Closing) (w : Closing) (before : List Closing), log = since ++ w :: before ∧
      a.name ∈ w.built ∧
      (∃ b ∈ apps, b.name = a.name ∧ Maker.Generated w.classes b (w.order b)) ∧
      ∀ c ∈ since, a.name ∉ c.built ∧ ∀ n ∈ c.order a, c.recent.contains n = false := by
  induction log with
  | nil =>
    obtain ⟨w, hw, -⟩ := hwritten
    cases hw
  | cons c log ih =>
    by_cases hc : a.name ∈ c.built
    · exact ⟨[], c, log, rfl, hc, h.2.1 _ hc, fun c hc => by cases hc⟩
    · obtain ⟨hbefore, hrecent⟩ := h.2.2 a ha hc
      obtain ⟨since, w, before, rfl, hw, hgenerated, hsince⟩ := ih h.1 hbefore
      refine ⟨c :: since, w, before, rfl, hw, hgenerated, ?_⟩
      exact List.forall_mem_cons.2 ⟨⟨hc, hrecent⟩, hsince⟩

theorem order_eq_of_isChain {a : Application} {c w : Closing} {since : List Closing}
    (hrecent : ∀ c' ∈ c :: since, ∀ n ∈ c'.order a, c'.recent.contains n = false)
    (h : (c :: since ++ [w]).IsChain (Closing.Follows a)) : c.order a = w.order a := by
  induction since generalizing c with
  | nil => exact (List.isChain_cons_cons.1 h).1.order_eq (hrecent c List.mem_cons_self)
  | cons c' since ih =>
    obtain ⟨hfollows, hrest⟩ := List.isChain_cons_cons.1 h
    exact (hfollows.order_eq (hrecent c List.mem_cons_self)).trans
      (ih (fun c hc => hrecent c (List.mem_cons_of_mem _ hc)) hrest)

/-! ## A class leaves an application -/

/-- An application that takes all classes of a package. -/
def pluginApp : Application := { mainClass := "a.A", included := ["p.*"] }

def pluginMaker : Maker :=
  Maker.new { kind := .source, config := { kind := "source", outputPath := ⟨"/o"⟩ } } [pluginApp] {} []
    ⟨"/"⟩ false

def pluginFiles : FileTree :=
  { (FileTree.put {} ["A.js"] (.file "1" 1)).put ["B.js"] (.file "2" 1) with now := 2 }

def pluginMetadata : Metadata where
  rootDir := ⟨"/m"⟩
  records := .ofList (["a.A", "p.B", "q.C"].map fun classname =>
    (classname, { (default : ClassRecord) with classname }))
  files := .ofList [("/A.js", "a.A"), ("/B.js", "p.B"), ("/C.js", "q.C")]

/-- A system with a class of the application, one of the package and one of another package. -/
def plugins : System :=
  System.start pluginFiles { transformer := .passthrough, engine := .inline {} } pluginMetadata
    (.ofList [("a.A", ⟨"/A.js"⟩), ("p.B", ⟨"/B.js"⟩), ("q.C", ⟨"/C.js"⟩)]) [pluginMaker]

/-- The first make, which writes the application. -/
def firstMake : List Action :=
  [.askMake 0 false, .make 0, .run 0, .compileIn 0 0, .compileIn 0 1, .job 0, .job 1, .compileIn 0 0,
    .compileIn 0 1, .run 0, .make 0]

/-- The second make, up to its last turn. -/
def secondMake : List Action :=
  [.askMake 0 false, .make 1, .run 1, .compileIn 1 0, .compileIn 1 1]

def removal (classname : String) (file : Path) : Action := .change ⟨.removed, classname, file⟩

theorem twoMakes_plugins :
    (twoMakes? 0 plugins (firstMake ++ removal "q.C" ⟨"/C.js"⟩ :: secondMake) 1).any
      (fun p => decide (p.1.classes = p.2.classes ∧
        pluginApp.requiredClasses p.1.known = pluginApp.requiredClasses p.2.known ∧
        p.1.known ≠ p.2.known ∧ p.1.built = [])) = true ∧
    (twoMakes? 0 plugins (firstMake ++ removal "p.B" ⟨"/B.js"⟩ :: secondMake) 1).any
      (fun p => decide (pluginApp.name ∈ p.2.built ∧ p.1.built = [] ∧
        "p.B" ∈ pluginApp.requiredClasses p.2.known ∧ p.2.classes.contains "p.B" = true ∧
        p.1.classes.contains "p.B" = false)) = true := by
  decide +kernel

/-! ## The order of an application that is skipped -/

/-- An application that a make skips was written by an earlier make. It has the load order it was
written from, if in every make since then whatever had changed in it had been compiled and stayed. -/
theorem skipped_order_written {files : FileTree} {backend : Backend} {metadata : Metadata}
    {classes : Table Path} {makers : List Maker} {schedule : List Action} {m : Maker}
    {later earlier : List Closing} {c : Closing} {a : Application}
    (hm : makers[i]? = some m) (hnew : m.generated = .empty)
    (hmakes : makes i (start files backend metadata classes makers) schedule =
      (later ++ c :: earlier).map .ok)
    (ha : a ∈ m.applications) (hskipped : a.name ∉ c.built) :
    ∃ since w before, earlier = since ++ w :: before ∧ a.name ∈ w.built ∧
      (∃ b ∈ m.applications, b.name = a.name ∧ Maker.Generated w.classes b (w.order b)) ∧
      (∀ c' ∈ since, a.name ∉ c'.built) ∧
      ((c :: since ++ [w]).IsChain (Closing.Follows a) → c.order a = w.order a) := by
  have hwritten : ∀ n, m.generated.contains n = true → ∃ w ∈ ([] : List Closing), n ∈ w.built := by
    intro n hn
    rw [hnew] at hn
    cases hn
  have hlog := accounted_makes hm hwritten trivial hmakes
  rw [List.append_nil] at hlog
  have hthen := hlog.of_append
  obtain ⟨hbefore, hrecent⟩ := hthen.2.2 a ha hskipped
  obtain ⟨since, w, before, rfl, hw, hgenerated, hsince⟩ := hthen.1.last_written ha hbefore
  refine ⟨since, w, before, rfl, hw, hgenerated, fun c' hc' => (hsince c' hc').1,
    order_eq_of_isChain ?_⟩
  exact List.forall_mem_cons.2 ⟨hrecent, fun c' hc' => (hsince c' hc').2⟩

/-- A class goes that is not in the application. -/
theorem skipped_order_written_otherClass :
    ∃ c w, makes 0 plugins (firstMake ++ removal "q.C" ⟨"/C.js"⟩ :: secondMake ++ [.run 1]) =
        [.ok c, .ok w] ∧
      c.known ≠ w.known ∧ pluginApp ∈ pluginMaker.applications ∧ pluginApp.name ∉ c.built ∧
      c.order pluginApp = w.order pluginApp := by
  obtain ⟨⟨c, w⟩, htwo, h⟩ := (Option.any_eq_true _ _).1 twoMakes_plugins.1
  obtain ⟨hclasses, hrequired, hknown, hbuilt⟩ := of_decide_eq_true h
  have hmakes := makes_of_twoMakes htwo
  have ha : pluginApp ∈ pluginMaker.applications := List.mem_singleton_self _
  have hskipped : pluginApp.name ∉ c.built := by
    rw [hbuilt]
    exact List.not_mem_nil
  have hlog : makes 0 plugins (firstMake ++ removal "q.C" ⟨"/C.js"⟩ :: secondMake ++ [Action.run 1]) =
      ([] ++ c :: [w]).map .ok := hmakes
  obtain ⟨since, w', before, hearlier, -, -, -, horder⟩ :=
    skipped_order_written (m := pluginMaker) rfl rfl hlog ha hskipped
  obtain ⟨rfl, hw⟩ | ⟨-, hw⟩ := List.singleton_eq_append_iff.1 hearlier
  · cases hw
    have hfollows : [c, w].IsChain (Closing.Follows pluginApp) :=
      .cons_cons (Closing.follows_of_same hclasses hrequired) (.singleton w)
    exact ⟨c, w, hmakes, hknown, ha, hskipped, horder hfollows⟩
  · cases hw

/-- The application is skipped though a class has left it. -/
theorem skipped_order_written_leftClass :
    ∃ c w, makes 0 plugins (firstMake ++ removal "p.B" ⟨"/B.js"⟩ :: secondMake ++ [.run 1]) =
        [.ok c, .ok w] ∧
      pluginApp.name ∈ w.built ∧ pluginApp.name ∉ c.built ∧ c.order pluginApp ≠ w.order pluginApp := by
  obtain ⟨⟨c, w⟩, htwo, h⟩ := (Option.any_eq_true _ _).1 twoMakes_plugins.2
  obtain ⟨hwritten, hbuilt, hroot, hthen, hnow⟩ := of_decide_eq_true h
  refine ⟨c, w, makes_of_twoMakes htwo, hwritten, ?_, ?_⟩
  · rw [hbuilt]
    exact List.not_mem_nil
  · intro horder
    have hmem : "p.B" ∈ w.order pluginApp := LoadOrder.root_mem_ofRoots hroot hthen
    rw [← horder] at hmem
    have hclass : c.classes.contains "p.B" = true := LoadOrder.contains_of_mem_ofRoots hmem
    rw [hnow] at hclass
    cases hclass

end System

end Build

end ClassForge
