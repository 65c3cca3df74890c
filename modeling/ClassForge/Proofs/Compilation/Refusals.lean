import ClassForge.Proofs.Compilation.Edits

/-!
# Refused sources

If the transformer refuses a source, the build information that says so is written, and the code that
an earlier compile has left stays where it is. The new information counts as that of the older code
if that code is not older than the source.
-/

namespace ClassForge.Compilation

open Json (encode)

variable {r : CompileRequest} {resolver : Resolver} {transformer : Transformer} {t t' : FileTree}
  {info : BuildInfo} {message : String}

def codePath (r : CompileRequest) : Path := artifactPath r.outputDir r.classname "js"

/-! ## What a refusal writes -/

def refusedInfo (r : CompileRequest) (source : String) (time : UInt64) (a : Dependency.Analysis)
    (message : String) : BuildInfo :=
  let info := infoOf r.classname source time a
  { info with markers := info.markers ++ [Marker.error Marker.transformFailed r.classname message] }

theorem hasErrors_refusedInfo (source : String) (time : UInt64) (a : Dependency.Analysis) :
    (refusedInfo r source time a message).hasErrors = true := by
  simp [BuildInfo.hasErrors, refusedInfo, Marker.isError, Marker.error, Marker.make]

theorem plan_refused {time : UInt64} {source : String}
    (h : (plan r resolver transformer time source).result = .error (.refused message)) :
    ∃ analysis, (plan r resolver transformer time source).writes =
      [(infoPath r, (encode (refusedInfo r source time analysis message)).pretty)] := by
  unfold plan at h ⊢
  split at h
  · cases h
  · next analysis hanalysis =>
    dsimp only at h ⊢
    split at h
    · cases h
    · cases h
      exact ⟨analysis, rfl⟩
    · cases h

theorem exists_write_of_run_changes {file : Path} {text : String} {u : PUnit}
    (h : ((changesOf (file, text)).forM Change.apply).run t = (.ok u, t')) :
    ∃ t₁, t.SameFiles t₁ ∧ t₁.write file text = .ok t' := by
  rw [changesOf, List.forM_eq_forM, List.forM_append] at h
  obtain ⟨_, t₁, hroom, hwrite⟩ := exists_of_run_bind_ok h
  obtain ⟨_, t₂, hwrite, hend⟩ := exists_of_run_bind_ok hwrite
  cases hend
  refine ⟨t₁, ?_, FileM.change_of_run_changing hwrite⟩
  cases hparent : file.parent? with
  | none =>
    rw [hparent] at hroom
    cases hroom
    exact fun _ _ _ => Iff.rfl
  | some d =>
    rw [hparent] at hroom
    obtain ⟨_, t₂, hcreate, hend⟩ := exists_of_run_bind_ok hroom
    cases hend
    exact FileTree.sameFiles_createDirectories (FileM.change_of_run_changing hcreate)

theorem exists_of_run_refused
    (h : (compile r resolver transformer).run t = (.error (.refused message), t')) :
    ∃ time source analysis, t.modified r.sourcePath = .ok time ∧ t.read r.sourcePath = .ok source ∧
      ∃ t₁, t.SameFiles t₁ ∧ t₁.write (infoPath r)
        (encode (refusedInfo r source time analysis message)).pretty = .ok t' := by
  obtain hfile | ⟨time, source, htime, hsource, hresult, _, hwrites⟩ := cases_of_run_error h
  · cases hfile
  · obtain ⟨analysis, hinfo⟩ := plan_refused hresult
    rw [hinfo, List.flatMap_singleton] at hwrites
    exact ⟨time, source, analysis, htime, hsource, exists_write_of_run_changes hwrites⟩

/-! ## What is used again -/

theorem node?_codePath {text : String} (h : t.write (infoPath r) text = .ok t') :
    t'.node? (codePath r).trail = t.node? (codePath r).trail := by
  refine FileTree.node?_writeAt_of_ne h fun hkey => ?_
  have heq : "json" = "js" := keyOf_artifactPath_inj (by decide) (by decide)
    (FileTree.trail_ne_nil_of_writeAt h) hkey.symm
  exact absurd heq (by decide)

/-- Build information that has been written for the present time of the source is used again exactly if
the code is not older. -/
theorem reusable?_eq_some_iff_of_stored {stored : BuildInfo}
    (htime : t.modified r.sourcePath = .ok stored.sourceTime)
    (hstored : t.read (infoPath r) = .ok (encode stored).pretty) :
    reusable? t r.outputDir r.classname r.sourcePath = some info ↔
      info = stored ∧ ∃ codeTime, t.modified (codePath r) = .ok codeTime ∧
        stored.sourceTime ≤ codeTime := by
  rw [reusable?_eq_some]
  constructor
  · rintro ⟨codeTime, text, -, hcode, htext, hinfo, hle⟩
    cases htext.symm.trans hstored
    cases hinfo.symm.trans (infoOfText?_pretty stored)
    exact ⟨rfl, codeTime, hcode, hle⟩
  · rintro ⟨rfl, codeTime, hcode, hle⟩
    exact ⟨codeTime, _, htime, hcode, hstored, infoOfText?_pretty _, hle⟩

theorem exists_reused_of_refused
    (h : (compile r resolver transformer).run t = (.error (.refused message), t'))
    (hsource : t'.modified r.sourcePath = t.modified r.sourcePath) :
    ∃ time source stored, t.modified r.sourcePath = .ok time ∧ t.read r.sourcePath = .ok source ∧
      stored.hash = hashOf source ∧ stored.hasErrors = true ∧
      ∀ info, reusable? t' r.outputDir r.classname r.sourcePath = some info ↔
        info = stored ∧ ∃ codeTime, t'.modified (codePath r) = .ok codeTime ∧ time ≤ codeTime := by
  obtain ⟨time, source, analysis, htime, htext, t₁, -, hwrite⟩ := exists_of_run_refused h
  exact ⟨time, source, refusedInfo r source time analysis message, htime, htext, rfl,
    hasErrors_refusedInfo source time analysis, fun info =>
      reusable?_eq_some_iff_of_stored (hsource.trans htime) (FileTree.read_writeAt hwrite)⟩

theorem node?_codePath_of_refused
    (h : (compile r resolver transformer).run t = (.error (.refused message), t')) (code : String)
    (codeTime : UInt64) : t'.node? (codePath r).trail = some (.file code codeTime) ↔
      t.node? (codePath r).trail = some (.file code codeTime) := by
  obtain ⟨time, source, analysis, -, -, t₁, hsame, hwrite⟩ := exists_of_run_refused h
  rw [node?_codePath hwrite]
  exact hsame _ code codeTime

/-- After a refusal the class is compiled again exactly if its code, which is the one that was there
before, is older than the source or missing. Otherwise the build information of the refusal is taken
for that of the older code. -/
theorem reusable?_refused_iff
    (h : (compile r resolver transformer).run t = (.error (.refused message), t'))
    (hsource : t'.modified r.sourcePath = t.modified r.sourcePath) :
    ∃ time source, t.modified r.sourcePath = .ok time ∧ t.read r.sourcePath = .ok source ∧
      (∀ code codeTime, t'.node? (codePath r).trail = some (.file code codeTime) ↔
        t.node? (codePath r).trail = some (.file code codeTime)) ∧
      (reusable? t' r.outputDir r.classname r.sourcePath = none ↔
        ∀ codeTime, t'.modified (codePath r) = .ok codeTime → codeTime < time) ∧
      ∀ info, reusable? t' r.outputDir r.classname r.sourcePath = some info →
        info.hash = hashOf source ∧ info.hasErrors = true := by
  obtain ⟨time, source, stored, htime, htext, hhash, herrors, hreused⟩ :=
    exists_reused_of_refused h hsource
  refine ⟨time, source, htime, htext, node?_codePath_of_refused h, ?_, fun info hinfo => ?_⟩
  · rw [Option.eq_none_iff_forall_ne_some]
    constructor
    · intro hnone codeTime hcode
      exact UInt64.not_le.1 fun hle => hnone stored ((hreused stored).2 ⟨rfl, codeTime, hcode, hle⟩)
    · intro holder info hinfo
      obtain ⟨-, codeTime, hcode, hle⟩ := (hreused info).1 hinfo
      exact UInt64.not_le.2 (holder codeTime hcode) hle
  · obtain ⟨rfl, -⟩ := (hreused info).1 hinfo
    exact ⟨hhash, herrors⟩

def refusing : Transformer where
  name := "refusing"
  run _ _ _ := .error (.failed "no")

/-- A class, with code that an earlier compile has left. -/
def compiledBefore (codeTime : UInt64) : FileTree :=
  { nodes := Table.ofList [("/A.js", .file "a.B;" 1), ("/o", .directory),
      ("/o/transpiled", .directory), ("/o/transpiled/a", .directory),
      ("/o/transpiled/a/A.js", .file "a.C;" codeTime)]
    now := 3 }

/-- The class is compiled once more, and its source is refused. -/
def refusedRun (codeTime : UInt64) : Except CompileError BuildInfo × FileTree :=
  (compile referring ({} : Snapshot).resolver refusing).run (compiledBefore codeTime)

/-- The code is older than the source. -/
theorem reusable?_refused_iff_older :
    ∃ t', refusedRun 0 = (.error (.refused "no"), t') ∧
      reusable? t' referring.outputDir referring.classname referring.sourcePath = none := by
  obtain ⟨htime, hrefused, hsource, hcode⟩ :
      (compiledBefore 0).modified referring.sourcePath = .ok 1 ∧
      (refusedRun 0).1 = .error (.refused "no") ∧
      (refusedRun 0).2.modified referring.sourcePath = .ok 1 ∧
      (refusedRun 0).2.modified (codePath referring) = .ok 0 := by decide +kernel
  rcases hrun : refusedRun 0 with ⟨outcome, t'⟩
  rw [hrun] at hrefused hsource hcode
  obtain rfl : outcome = .error (.refused "no") := hrefused
  obtain ⟨time, source, htime', -, -, hnone, -⟩ :=
    reusable?_refused_iff hrun (hsource.trans htime.symm)
  cases htime.symm.trans htime'
  refine ⟨t', rfl, hnone.2 fun codeTime hcodeTime => ?_⟩
  cases hcode.symm.trans hcodeTime
  decide

/-- The code is newer than the source, as it is if the source was edited while that code was made. -/
theorem reusable?_refused_newer :
    ∃ t' info, refusedRun 2 = (.error (.refused "no"), t') ∧
      t'.modified referring.sourcePath = (compiledBefore 2).modified referring.sourcePath ∧
      reusable? t' referring.outputDir referring.classname referring.sourcePath = some info ∧
      info.hasErrors = true ∧ t'.read (codePath referring) = .ok "a.C;" := by
  obtain ⟨htime, hrefused, hsource, hcode, hread⟩ :
      (compiledBefore 2).modified referring.sourcePath = .ok 1 ∧
      (refusedRun 2).1 = .error (.refused "no") ∧
      (refusedRun 2).2.modified referring.sourcePath = .ok 1 ∧
      (refusedRun 2).2.modified (codePath referring) = .ok 2 ∧
      (refusedRun 2).2.read (codePath referring) = .ok "a.C;" := by decide +kernel
  rcases hrun : refusedRun 2 with ⟨outcome, t'⟩
  rw [hrun] at hrefused hsource hcode hread
  obtain rfl : outcome = .error (.refused "no") := hrefused
  have hsame := hsource.trans htime.symm
  obtain ⟨time, source, stored, htime', -, -, herrors, hreused⟩ :=
    exists_reused_of_refused hrun hsame
  cases htime.symm.trans htime'
  have hle : (1 : UInt64) ≤ 2 := by decide
  exact ⟨t', stored, rfl, hsame, (hreused stored).2 ⟨rfl, 2, hcode, hle⟩, herrors, hread⟩

end ClassForge.Compilation
