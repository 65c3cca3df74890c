import ClassForge.Proofs.Dependency.Mentions
import ClassForge.Proofs.Files.Places
import ClassForge.Proofs.Files.Steps

/-!
# Build information that is used again

What a compile writes about a class is read back as it was. It says what the source referred to under
the metadata of that compile, which is what it refers to now if its names still lead to the same
classes.
-/

namespace ClassForge

namespace Compilation

open Json (encode)

variable {r : CompileRequest} {resolver : Resolver} {transformer : Transformer} {t t' : FileTree}
  {info : BuildInfo} {e : CompileError}

/-! ## What a compile writes -/

inductive Change where
  | create (directory : Path)
  | write (file : Path) (text : String)

def Change.apply : Change → FileM CompileError Unit
  | create d => FileM.changing (·.createDirectories d) (.cannotCreate d)
  | write file text => FileM.changing (·.write file text) (.cannotWrite file)

def changesOf (w : Path × String) : List Change :=
  (w.1.parent?.map Change.create).toList ++ [Change.write w.1 w.2]

theorem writeArtifact_eq (w : Path × String) :
    writeArtifact w.1 w.2 = (changesOf w).forM Change.apply := by
  rw [writeArtifact, changesOf]
  cases w.1.parent? with
  | none => simp [Change.apply]
  | some d => simp [Change.apply]

theorem forM_writeArtifact_eq {f : Path × String → FileM CompileError Unit}
    (hf : ∀ w, f w = writeArtifact w.1 w.2) (writes : List (Path × String)) :
    writes.forM f = (writes.flatMap changesOf).forM Change.apply := by
  induction writes with
  | nil => rfl
  | cons w writes ih =>
    rw [List.flatMap_cons, List.forM_eq_forM, List.forM_eq_forM, List.forM_append, List.forM_cons, hf,
      writeArtifact_eq]
    exact congrArg _ (funext fun _ => ih)

theorem read_of_run_changes {changes : List Change} {file : Path} {text : String} {u : PUnit}
    (h : ((changes ++ [Change.write file text]).forM Change.apply).run t = (.ok u, t')) :
    t'.read file = .ok text := by
  rw [List.forM_eq_forM, List.forM_append] at h
  obtain ⟨_, t₁, -, hwrite⟩ := exists_of_run_bind_ok h
  obtain ⟨_, t₂, hwrite, hrest⟩ := exists_of_run_bind_ok hwrite
  cases hrest
  exact FileTree.read_writeAt (FileM.change_of_run_changing hwrite)

/-! ## How a compile fails -/

def byTransformer : CompileError → Bool
  | .refused _ | .crashed _ => true
  | _ => false

theorem byTransformer_of_run_reading {α : Type} {read : FileTree → Except FileError α}
    {wrap : FileError → CompileError} (hwrap : ∀ cause, byTransformer (wrap cause) = false)
    (h : (FileM.reading read wrap).run t = (.error e, t')) : byTransformer e = false := by
  rw [FileM.run_reading] at h
  cases hread : read t with
  | ok a =>
    rw [hread] at h
    cases h
  | error cause =>
    rw [hread] at h
    cases h
    exact hwrap cause

theorem byTransformer_of_run_changes {changes : List Change}
    (h : (changes.forM Change.apply).run t = (.error e, t')) : byTransformer e = false := by
  induction changes generalizing t with
  | nil => cases h
  | cons change changes ih =>
    obtain hfirst | ⟨_, t₁, -, hrest⟩ := cases_of_run_bind_error h
    · cases change with
      | create d | write file text =>
        rw [Change.apply, FileM.run_changing] at hfirst
        split at hfirst
        · cases hfirst
        · cases hfirst
          rfl
    · exact ih hrest

/-- An error that the transformer gave comes after all is written. -/
theorem cases_of_run_error (h : (compile r resolver transformer).run t = (.error e, t')) :
    byTransformer e = false ∨ ∃ time source, t.modified r.sourcePath = .ok time ∧
      t.read r.sourcePath = .ok source ∧
      (plan r resolver transformer time source).result = .error e ∧ ∃ u : PUnit,
      (((plan r resolver transformer time source).writes.flatMap changesOf).forM Change.apply).run t =
        (.ok u, t') := by
  obtain hstat | ⟨time, t₁, hstat, hrest⟩ := cases_of_run_bind_error h
  · exact .inl (byTransformer_of_run_reading (fun _ => rfl) hstat)
  obtain ⟨htime, rfl⟩ := FileM.read_of_run_reading hstat
  obtain hread | ⟨source, t₂, hread, hplan⟩ := cases_of_run_bind_error hrest
  · exact .inl (byTransformer_of_run_reading (fun _ => rfl) hread)
  obtain ⟨hsource, rfl⟩ := FileM.read_of_run_reading hread
  obtain hwrites | ⟨u, t₃, hwrites, hthrow⟩ := cases_of_run_bind_error hplan
  · rw [forM_writeArtifact_eq fun _ => rfl] at hwrites
    exact .inl (byTransformer_of_run_changes hwrites)
  rw [forM_writeArtifact_eq fun _ => rfl] at hwrites
  cases hresult : (plan r resolver transformer time source).result with
  | ok info =>
    rw [hresult] at hthrow
    cases hthrow
  | error e =>
    rw [hresult] at hthrow
    cases hthrow
    exact .inr ⟨time, source, htime, hsource, hresult, u, hwrites⟩

def infoPath (r : CompileRequest) : Path := artifactPath r.outputDir r.classname "json"

structure Compiled (r : CompileRequest) (resolver : Resolver) (info : BuildInfo) (t t' : FileTree) :
    Prop where
  source : ∃ time text analysis, t.modified r.sourcePath = .ok time ∧ t.read r.sourcePath = .ok text ∧
    Dependency.ofSource? r.classname text resolver = some analysis ∧
    info = infoOf r.classname text time analysis
  stored : t'.read (infoPath r) = .ok (encode info).pretty

theorem plan_ok {time : UInt64} {text : String}
    (h : (plan r resolver transformer time text).result = .ok info) :
    ∃ analysis writes, Dependency.ofSource? r.classname text resolver = some analysis ∧
      info = infoOf r.classname text time analysis ∧
      (plan r resolver transformer time text).writes =
        writes ++ [(infoPath r, (encode info).pretty)] := by
  unfold plan at h ⊢
  split at h
  · cases h
  · next analysis hanalysis =>
    simp only [hanalysis] at h ⊢
    split at h
    · cases h
    · cases h
    · cases h
      exact ⟨analysis, _, rfl, rfl, rfl⟩

theorem exists_plan_of_run (h : (compile r resolver transformer).run t = (.ok info, t')) :
    ∃ time text, t.modified r.sourcePath = .ok time ∧ t.read r.sourcePath = .ok text ∧
      (plan r resolver transformer time text).result = .ok info ∧ ∃ u : PUnit,
      ((plan r resolver transformer time text).writes.forM fun w => writeArtifact w.1 w.2).run t =
        (.ok u, t') := by
  obtain ⟨time, t₁, htime, hread⟩ := exists_of_run_bind_ok h
  obtain ⟨htime, rfl⟩ := FileM.read_of_run_reading htime
  obtain ⟨text, t₂, htext, hplan⟩ := exists_of_run_bind_ok hread
  obtain ⟨htext, rfl⟩ := FileM.read_of_run_reading htext
  obtain ⟨u, t₃, hwrites, hresult⟩ := exists_of_run_bind_ok hplan
  cases hok : (plan r resolver transformer time text).result with
  | error e =>
    rw [hok] at hresult
    cases hresult
  | ok info' =>
    rw [hok] at hresult
    cases hresult
    exact ⟨time, text, htime, htext, hok, u, hwrites⟩

theorem compiled_of_run (h : (compile r resolver transformer).run t = (.ok info, t')) :
    Compiled r resolver info t t' := by
  obtain ⟨time, text, htime, htext, hok, _, hwrites⟩ := exists_plan_of_run h
  obtain ⟨analysis, writes, hanalysis, hinfo, heq⟩ := plan_ok hok
  refine ⟨⟨time, text, analysis, htime, htext, hanalysis, hinfo⟩, ?_⟩
  rw [forM_writeArtifact_eq fun _ => rfl, heq, List.flatMap_append, List.flatMap_singleton, changesOf,
    ← List.append_assoc] at hwrites
  dsimp only at hwrites
  exact read_of_run_changes hwrites

/-! ## What is read back -/

def infoOfText? (text : String) : Option BuildInfo := do
  let j ← Json.parse? text
  (Json.decode j).toOption

theorem infoOfText?_pretty (info : BuildInfo) : infoOfText? (encode info).pretty = some info := by
  rw [infoOfText?, Json.parse?_pretty_encode (by decide)]
  simp [Except.toOption]

theorem toOption_eq_some {α ε : Type} {x : Except ε α} {a : α} : x.toOption = some a ↔ x = .ok a := by
  cases x <;> simp [Except.toOption]

theorem reusable?_eq_some {outputDir source : Path} {classname : String} :
    reusable? t outputDir classname source = some info ↔
      ∃ codeTime text, t.modified source = .ok info.sourceTime ∧
        t.modified (artifactPath outputDir classname "js") = .ok codeTime ∧
        t.read (artifactPath outputDir classname "json") = .ok text ∧ infoOfText? text = some info ∧
        info.sourceTime ≤ codeTime := by
  simp only [reusable?, infoOfText?, Option.bind_eq_bind, Option.bind_eq_some_iff, toOption_eq_some]
  constructor
  · rintro ⟨sourceTime, hsource, codeTime, hcode, text, htext, j, hj, info', hinfo, h⟩
    split_ifs at h with hvalid
    cases h
    obtain ⟨rfl, hle⟩ := hvalid
    exact ⟨codeTime, text, hsource, hcode, htext, ⟨j, hj, hinfo⟩, hle⟩
  · rintro ⟨codeTime, text, hsource, hcode, htext, ⟨j, hj, hinfo⟩, hle⟩
    exact ⟨_, hsource, codeTime, hcode, text, htext, j, hj, info, hinfo, if_pos ⟨rfl, hle⟩⟩

theorem Compiled.reused {t₁ t₂ : FileTree} {reused : BuildInfo} (h : Compiled r resolver info t t₁)
    (hstored : t₂.read (infoPath r) = t₁.read (infoPath r))
    (hreused : reusable? t₂ r.outputDir r.classname r.sourcePath = some reused) : reused = info := by
  obtain ⟨_, text, -, -, htext, hinfo, -⟩ := reusable?_eq_some.1 hreused
  have hsame : (Except.ok text : Except FileError String) = .ok (encode info).pretty :=
    htext.symm.trans (hstored.trans h.stored)
  cases hsame
  exact Option.some.inj (hinfo.symm.trans (infoOfText?_pretty info))

/-! ## Metadata that changes -/

/-- A class whose source refers to another one. -/
def referring : CompileRequest := { classname := "a.A", sourcePath := ⟨"/A.js"⟩, outputDir := ⟨"/o"⟩ }

def referringFiles : FileTree := { FileTree.put {} ["A.js"] (.file "a.B;" 1) with now := 2 }

def knowing (known : List String) : Snapshot :=
  { classes := .ofList (known.map fun classname => (classname, { (default : ClassRecord) with classname })) }

/-- The class is compiled with and without metadata of the other one, and what is written is used
again. -/
theorem referring_reused {known : List String} (hknown : known = [] ∨ known = ["a.B"]) :
    ∃ info t₁, (compile referring (knowing known).resolver .passthrough).run referringFiles =
        (.ok info, t₁) ∧
      t₁.read referring.sourcePath = .ok "a.B;" ∧
      referringFiles.read referring.sourcePath = .ok "a.B;" ∧
      reusable? t₁ referring.outputDir referring.classname referring.sourcePath = some info ∧
      info.dependsOn.keys = known := by
  have hfiles :
      let run := (compile referring (knowing known).resolver .passthrough).run referringFiles
      run.1.toOption.isSome = true ∧ run.2.read referring.sourcePath = .ok "a.B;" ∧
        run.2.modified referring.sourcePath = .ok 1 ∧
        run.2.modified (artifactPath referring.outputDir referring.classname "js") = .ok 2 := by
    obtain rfl | rfl := hknown <;> decide +kernel
  have hsource : referringFiles.read referring.sourcePath = .ok "a.B;" ∧
      referringFiles.modified referring.sourcePath = .ok 1 := by decide +kernel
  have hkeys : (Dependency.ofSource? referring.classname "a.B;" (knowing known).resolver).map
      (·.dependsOn.keys) = some known := by obtain rfl | rfl := hknown <;> decide +kernel
  cases hrun : (compile referring (knowing known).resolver .passthrough).run referringFiles with
  | mk outcome t₁ =>
    rw [hrun] at hfiles
    obtain ⟨hok, hread, hmodified, hcode⟩ := hfiles
    cases outcome with
    | error e => cases hok
    | ok info =>
      have hcompiled := compiled_of_run hrun
      obtain ⟨time, text, analysis, htime, htext, hanalysis, rfl⟩ := hcompiled.source
      cases htime.symm.trans hsource.2
      cases htext.symm.trans hsource.1
      rw [hanalysis] at hkeys
      have hle : (1 : UInt64) ≤ 2 := by decide
      exact ⟨_, t₁, rfl, hread, hsource.1, reusable?_eq_some.2
        ⟨2, _, hmodified, hcode, hcompiled.stored, infoOfText?_pretty _, hle⟩, Option.some.inj hkeys⟩

/-- Once a class is compiled, its build information is used again while the metadata changes: it says
what the source refers to under the metadata of that compile, and that is what it refers to under the
metadata of now if all its mentions lead to the same classes. -/
theorem reused_dependsOn {s₁ s₂ : Snapshot} {t₁ t₂ : FileTree} {reused : BuildInfo}
    (hcompile : (compile r s₁.resolver transformer).run t = (.ok info, t₁))
    (hsource : t₂.read r.sourcePath = t.read r.sourcePath)
    (hstored : t₂.read (infoPath r) = t₁.read (infoPath r))
    (hreused : reusable? t₂ r.outputDir r.classname r.sourcePath = some reused) :
    ∃ text, t₂.read r.sourcePath = .ok text ∧
      (Dependency.ofSource? r.classname text s₁.resolver).map (·.dependsOn) = some reused.dependsOn ∧
      (Dependency.LeadAlike r.classname text s₁.resolver s₂.resolver →
        (Dependency.ofSource? r.classname text s₂.resolver).map (·.dependsOn) =
          some reused.dependsOn) := by
  have hcompiled := compiled_of_run hcompile
  obtain ⟨time, text, analysis, -, htext, hanalysis, rfl⟩ := hcompiled.source
  obtain rfl := hcompiled.reused hstored hreused
  have hthen : (Dependency.ofSource? r.classname text s₁.resolver).map (·.dependsOn) =
      some analysis.dependsOn := by rw [hanalysis]; rfl
  exact ⟨text, hsource.trans htext, hthen, fun halike =>
    (Dependency.dependsOn_of_leadAlike halike).symm.trans hthen⟩

theorem reused_dependsOn_other_class :
    ∃ info t₁, (compile referring (knowing ["a.B"]).resolver .passthrough).run referringFiles =
        (.ok info, t₁) ∧
      reusable? t₁ referring.outputDir referring.classname referring.sourcePath = some info ∧
      info.dependsOn.keys = ["a.B"] ∧
      (Dependency.ofSource? referring.classname "a.B;" (knowing ["a.B", "a.C"]).resolver).map
        (·.dependsOn) = some info.dependsOn := by
  obtain ⟨info, t₁, hrun, hread, hsource, hreused, hkeys⟩ := referring_reused (.inr rfl)
  have hmentions : (Script.Program.parse? "a.B;").map (fun program =>
      let setting := Dependency.settingOf "a.A" (Script.Source.ofProgram "a.B;" program)
      (Dependency.mentions program.statements).all fun m =>
        (setting (knowing ["a.B"]).resolver).target? m.2 ==
          (setting (knowing ["a.B", "a.C"]).resolver).target? m.2) = some true := by decide +kernel
  have halike : Dependency.LeadAlike "a.A" "a.B;" (knowing ["a.B"]).resolver
      (knowing ["a.B", "a.C"]).resolver := by
    intro program hprogram m hm
    rw [hprogram] at hmentions
    exact eq_of_beq (List.all_eq_true.1 (Option.some.inj hmentions) m hm)
  obtain ⟨text, htext, -, hnow⟩ := reused_dependsOn hrun (hread.trans hsource.symm) rfl hreused
  cases htext.symm.trans hread
  exact ⟨info, t₁, hrun, hreused, hkeys, hnow halike⟩

/-- The class that the source refers to is added after the compile, and what is used again does not
know it. -/
theorem reused_dependsOn_added_class :
    ∃ info t₁, (compile referring (knowing []).resolver .passthrough).run referringFiles =
        (.ok info, t₁) ∧
      t₁.read referring.sourcePath = referringFiles.read referring.sourcePath ∧
      reusable? t₁ referring.outputDir referring.classname referring.sourcePath = some info ∧
      (Dependency.ofSource? referring.classname "a.B;" (knowing ["a.B"]).resolver).map (·.dependsOn) ≠
        some info.dependsOn := by
  obtain ⟨info, t₁, hrun, hread, hsource, hreused, hkeys⟩ := referring_reused (.inl rfl)
  have hnow : (Dependency.ofSource? referring.classname "a.B;" (knowing ["a.B"]).resolver).map
      (Table.keys ∘ (·.dependsOn)) = some ["a.B"] := by decide +kernel
  refine ⟨info, t₁, hrun, hread.trans hsource.symm, hreused, fun heq => ?_⟩
  have hall := congrArg (Option.map Table.keys) heq
  rw [Option.map_map, hnow, Option.map_some, hkeys] at hall
  cases hall

end Compilation

end ClassForge
