import Mathlib.Logic.Function.Basic
import ClassForge.Bundle.Target
import ClassForge.Proofs.Catalog.Lines
import ClassForge.Proofs.Compilation.Refusals
import ClassForge.Proofs.Files.Frames
import ClassForge.Proofs.Files.Names

/-!
# Packages without map comments

A compile ends the code of a class with a comment that names its map, and a package holds the code of
its classes without these comments. Whatever the code is like, the last such comment is the one that the
compile has added, so the package holds what the transformer gave, up to blanks at the end.
-/

namespace ClassForge

/-! ## The last occurrence of a word -/

namespace Text

variable {ch : Char} {word cs rest a : List Char}

theorem dropHead?_of_not_mem (h : ch ∉ cs) : dropHead? (ch :: word) cs = none := by
  cases cs with
  | nil => rfl
  | cons c cs => rw [dropHead?, if_neg (List.ne_of_not_mem_cons h)]

theorem beforeLast_of_not_mem (h : ch ∉ cs) : beforeLast (ch :: word) cs = none := by
  induction cs with
  | nil => rfl
  | cons c cs ih =>
    rw [beforeLast, ih (List.not_mem_of_not_mem_cons h), dropHead?_of_not_mem h]
    rfl

theorem beforeLast_doubled (hword : ch ∉ word) (hrest : ch ∉ rest) :
    beforeLast (ch :: ch :: word) (ch :: ch :: (word ++ rest)) = some [] := by
  have hnone : ch ∉ word ++ rest := by simp [hword, hrest]
  have hsecond : beforeLast (ch :: ch :: word) (ch :: (word ++ rest)) = none := by
    rw [beforeLast, beforeLast_of_not_mem hnone, dropHead?, if_pos rfl, dropHead?_of_not_mem hnone]
    rfl
  have hfirst : dropHead? (ch :: ch :: word) (ch :: ch :: (word ++ rest)) = some rest :=
    dropHead?_eq_some.2 rfl
  rw [beforeLast, hsecond, hfirst]
  rfl

theorem beforeLast_append (h : beforeLast word cs = some a) (front : List Char) :
    beforeLast word (front ++ cs) = some (front ++ a) := by
  induction front with
  | nil => exact h
  | cons c front ih => rw [List.cons_append, beforeLast, ih, List.cons_append]

theorem trimEnd_append_blank (hback : Blank a) (cs : List Char) :
    trimEnd (trimEnd cs ++ a) = trimEnd cs := by
  simp only [trimEnd, dropEndWhile_eq]
  rw [rdropWhile_append_blank hback, List.rdropWhile_idempotent]

end Text

namespace Target

theorem withoutMapComment_withMapComment {mapName : String} (h : '/' ∉ mapName.toList) (code : String) :
    withoutMapComment (Compilation.withMapComment code mapName) = Text.trimmedEnd code := by
  have hcomment : "//# sourceMappingURL=".toList = '/' :: '/' :: "# sourceMappingURL=".toList := rfl
  have htext : (Compilation.withMapComment code mapName).toList =
      (Text.trimEnd code.toList ++ ['\n', '\n']) ++
        '/' :: '/' :: ("# sourceMappingURL=".toList ++ (mapName.toList ++ ['\n'])) := by
    simp [Compilation.withMapComment, Text.trimmedEnd]
  have hword : '/' ∉ "# sourceMappingURL=".toList := by decide
  have hrest : '/' ∉ mapName.toList ++ ['\n'] := by simp [h]
  have hlast := Text.beforeLast_doubled hword hrest
  rw [withoutMapComment, htext, hcomment, Text.beforeLast_append hlast, List.append_nil]
  dsimp only
  rw [Text.trimEnd_append_blank (by simp [Text.Blank, Text.isBlank]), Text.trimmedEnd]

end Target

/-! ## Code that compiles write -/

namespace Compilation

variable {r : CompileRequest} {resolver : Resolver} {transformer : Transformer} {t t' : FileTree}
  {info : BuildInfo} {c c' extension extension' : String}

/-- Every piece of a class name is made of characters of identifiers. -/
def Worded (c : String) : Prop :=
  ∀ s ∈ Text.split '.' c, s ≠ "" ∧ ∀ ch ∈ s.toList, Text.isIdPart ch = true

theorem Worded.not_mem (h : Worded c) {s : String} (hs : s ∈ Text.split '.' c) {ch : Char}
    (hch : Text.isIdPart ch = false) : ch ∉ s.toList := by
  intro hmem
  rw [(h s hs).2 ch hmem] at hch
  cases hch

theorem Worded.plain (h : Worded c) : Path.PlainName c := by
  have hslash : Text.isIdPart '/' = false := by decide +kernel
  exact fun s hs => ⟨(h s hs).1, h.not_mem hs hslash⟩

theorem proper_extensions : ∀ s ∈ extensions, s ≠ "" ∧ '/' ∉ s.toList := by decide

/-- The files of classes lie in different places. -/
theorem eq_of_keyOf_artifactPath {outputDir : Path} (hc : Worded c) (hc' : Worded c')
    (hextension : extension ∈ extensions) (hextension' : extension' ∈ extensions)
    (h : FileTree.keyOf (artifactPath outputDir c extension).trail =
      FileTree.keyOf (artifactPath outputDir c' extension').trail) :
    c = c' ∧ extension = extension' := by
  obtain ⟨hne, hslash⟩ := proper_extensions _ hextension
  obtain ⟨hne', hslash'⟩ := proper_extensions _ hextension'
  have htrail := Path.trail_eq_of_key (Path.trail_ofClass_ne_nil _ hc.plain hne hslash)
    (Path.trail_ofClass_ne_nil _ hc'.plain hne' hslash') h
  obtain ⟨front, last, hpieces⟩ := Path.exists_pieces c
  obtain ⟨front', last', hpieces'⟩ := Path.exists_pieces c'
  have hsplit {c : String} {front : List String} {last : String}
      (hpieces : Text.split '.' c = front ++ [last]) (extension : String) :
      Text.split '.' (last ++ "." ++ extension) = last :: Text.split '.' extension := by
    have hdot : '.' ∉ last.toList := (Text.of_mem_split (s := c) (by simp [hpieces])).1
    rw [Text.split_of_toList (a := last) (b := extension) (by simp), Text.split_of_not_mem hdot]
    rfl
  have hheads := htrail
  rw [Path.trail_ofClass _ hc.plain hpieces hne hslash,
    Path.trail_ofClass _ hc'.plain hpieces' hne' hslash'] at hheads
  have hnames := congrArg (Text.split '.') (List.cons.inj hheads).1
  rw [hsplit hpieces, hsplit hpieces'] at hnames
  obtain rfl := Text.split_inj (List.cons.inj hnames).2
  exact ⟨Path.trail_ofClass_inj hc.plain hc'.plain hne hslash htrail, rfl⟩

theorem touches_writeArtifact (file : Path) (text : String) :
    Touches [file.trail] (writeArtifact file text) := by
  rw [writeArtifact]
  split
  · exact (Touches.createDirectories _ _).bind fun _ => .write file text _
  · exact (Touches.pure _).bind fun _ => .write file text _

theorem read_of_run_writeArtifact {file : Path} {text : String} {u : Unit}
    (h : (writeArtifact file text).run t = (.ok u, t')) : t'.read file = .ok text := by
  rw [writeArtifact_eq (file, text)] at h
  exact read_of_run_changes h

theorem touches_compile (r : CompileRequest) (resolver : Resolver) (transformer : Transformer) :
    Touches (extensions.map fun e => (artifactPath r.outputDir r.classname e).trail)
      (compile r resolver transformer) := by
  refine (Touches.reading _ _).bind fun time => (Touches.reading _ _).bind fun source => ?_
  refine (Touches.forM fun w hw => ?_).bind fun _ => ?_
  · obtain ⟨file, text⟩ := w
    refine (touches_writeArtifact file text).of_mem (List.mem_map.2 ?_)
    obtain ⟨extension, hextension, -, rfl⟩ | ⟨rfl, -⟩ := of_mem_plan_writes hw
    · exact ⟨extension, hextension, rfl⟩
    · exact ⟨"json", by decide, rfl⟩
  · split
    · exact .pure _
    · exact .throw _

def transformed? (r : CompileRequest) (transformer : Transformer) (t : FileTree) : Option String := do
  let source ← (t.read r.sourcePath).toOption
  let options := { minify := r.minify, sourceMap := true }
  let output ← (transformer.run source r.sourcePath.text options).toOption
  return output.code

theorem not_mem_fileName (p : Path) : '/' ∉ (p.fileName?.getD "").toList := by
  cases h : p.fileName? with
  | none => decide
  | some name =>
    obtain ⟨front, hparts, -⟩ := Path.parts_of_fileName h
    exact Path.not_mem_of_mem_parts (p := p) (by simp [hparts])

theorem exists_output_of_plan {time : UInt64} {source : String}
    (h : (plan r resolver transformer time source).result = .ok info) :
    ∃ output mapName others, transformer.run source r.sourcePath.text
        { minify := r.minify, sourceMap := true } = .ok output ∧ '/' ∉ mapName.toList ∧
      (plan r resolver transformer time source).writes =
        (codePath r, withMapComment output.code mapName) :: others ∧
      ∀ file text, (file, text) ∈ others → ∃ extension ∈ extensions, extension ≠ "js" ∧
        file = artifactPath r.outputDir r.classname extension := by
  unfold plan at h ⊢
  split at h
  · cases h
  · next analysis hanalysis =>
    dsimp only at h ⊢
    split at h
    · cases h
    · cases h
    · next output houtput =>
      refine ⟨output, _, (output.map.map fun map => (artifactPath r.outputDir r.classname "js.map",
        map)).toList ++ [(infoPath r, _)], houtput, not_mem_fileName _, rfl, fun file text hw => ?_⟩
      simp only [List.mem_append, List.mem_singleton, Option.mem_toList, Option.map_eq_some_iff,
        Prod.mk.injEq] at hw
      obtain ⟨map, -, hfile, -⟩ | ⟨hfile, -⟩ := hw
      · exact ⟨"js.map", by decide, by decide, hfile.symm⟩
      · exact ⟨"json", by decide, by decide, hfile⟩

theorem exists_code_of_run (hname : Worded r.classname)
    (h : (compile r resolver transformer).run t = (.ok info, t')) :
    ∃ code mapName, transformed? r transformer t = some code ∧ '/' ∉ mapName.toList ∧
      t'.read (codePath r) = .ok (withMapComment code mapName) := by
  obtain ⟨time, source, -, hsource, hok, u, hwrites⟩ := exists_plan_of_run h
  obtain ⟨output, mapName, others, houtput, hslash, hplanned, hothers⟩ := exists_output_of_plan hok
  rw [hplanned] at hwrites
  obtain ⟨_, t₁, hcode, hrest⟩ := exists_of_run_bind_ok hwrites
  have hread := read_of_run_writeArtifact hcode
  refine ⟨output.code, mapName, ?_, hslash, ?_⟩
  · simp [transformed?, hsource, houtput, Except.toOption]
  -- the map and the build information are written elsewhere
  · have htouches : Touches (others.map (·.1.trail)) (others.forM fun w => writeArtifact w.1 w.2) :=
      .forM fun w hw => (touches_writeArtifact w.1 w.2).of_mem (List.mem_map.2 ⟨w, hw, rfl⟩)
    have hrun : (others.forM fun w => writeArtifact w.1 w.2).run t₁ = (.ok u, t') := hrest
    have hkept := htouches t₁
    rw [hrun] at hkept
    refine hkept.read (fun place hplace hkey => ?_) hread
    obtain ⟨w, hw, rfl⟩ := List.mem_map.1 hplace
    obtain ⟨extension, hextension, hne, hfile⟩ := hothers w.1 w.2 hw
    rw [hfile] at hkey
    exact hne (eq_of_keyOf_artifactPath hname hname (by decide) hextension hkey).2.symm

/-- Compiles below an output directory, with anything in between that leaves the code alone, and the
code that the transformer gave for each class. -/
inductive Emitted (outputDir : Path) : FileTree → (String → Option String) → Prop
  | start (t : FileTree) : Emitted outputDir t fun _ => none
  | compile {t : FileTree} {codes : String → Option String} (h : Emitted outputDir t codes)
      (r : CompileRequest) (resolver : Resolver) (transformer : Transformer)
      (hdir : r.outputDir = outputDir) (hname : Worded r.classname) :
      Emitted outputDir ((compile r resolver transformer).run t).2
        (Function.update codes r.classname
          (((compile r resolver transformer).run t).1.toOption.bind fun _ =>
            transformed? r transformer t))
  | other {t t' : FileTree} {codes : String → Option String} (h : Emitted outputDir t codes)
      (hkept : ∀ c, codes c ≠ none → t'.read (artifactPath outputDir c "js") =
        t.read (artifactPath outputDir c "js")) : Emitted outputDir t' codes

theorem Emitted.compiled {outputDir : Path} {codes : String → Option String} {code : String}
    (h : Emitted outputDir t codes) (r : CompileRequest) (resolver : Resolver)
    (transformer : Transformer) (hdir : r.outputDir = outputDir) (hname : Worded r.classname)
    (hok : ((Compilation.compile r resolver transformer).run t).1.toOption.isSome = true)
    (hcode : transformed? r transformer t = some code) :
    ∃ codes', Emitted outputDir ((Compilation.compile r resolver transformer).run t).2 codes' ∧
      codes' r.classname = some code ∧ ∀ c ≠ r.classname, codes' c = codes c := by
  obtain ⟨info, hinfo⟩ := Option.isSome_iff_exists.1 hok
  refine ⟨_, h.compile r resolver transformer hdir hname, ?_,
    fun c hc => Function.update_of_ne hc _ codes⟩
  rw [Function.update_self, hinfo, Option.bind_some, hcode]

def Holds (outputDir : Path) (t : FileTree) (c code : String) : Prop :=
  Worded c ∧ ∃ mapName, '/' ∉ mapName.toList ∧
    t.read (artifactPath outputDir c "js") = .ok (withMapComment code mapName)

theorem Emitted.holds {outputDir : Path} {codes : String → Option String} {code : String}
    (h : Emitted outputDir t codes) (hc : codes c = some code) : Holds outputDir t c code := by
  induction h generalizing c code with
  | start => cases hc
  | other h hkept ih =>
    obtain ⟨hname, mapName, hslash, hread⟩ := ih hc
    exact ⟨hname, mapName, hslash, (hkept c (by simp [hc])).trans hread⟩
  | @compile t codes h r resolver transformer hdir hname ih =>
    subst hdir
    by_cases hsame : c = r.classname
    · subst hsame
      rw [Function.update_self] at hc
      rcases hrun : (Compilation.compile r resolver transformer).run t with ⟨outcome, t'⟩
      rw [hrun] at hc
      cases outcome with
      | error e => cases hc
      | ok info =>
        obtain ⟨code', mapName, hcode, hslash, hread⟩ := exists_code_of_run hname hrun
        cases hcode.symm.trans hc
        exact ⟨hname, mapName, hslash, hread⟩
    · rw [Function.update_of_ne hsame] at hc
      obtain ⟨hword, mapName, hslash, hread⟩ := ih hc
      refine ⟨hword, mapName, hslash, (touches_compile r resolver transformer).read ?_ hread⟩
      intro place hplace hkey
      obtain ⟨extension, hextension, rfl⟩ := List.mem_map.1 hplace
      exact hsame (eq_of_keyOf_artifactPath hword hname (by decide) hextension hkey).1

end Compilation

/-! ## Packages -/

namespace Target

open Compilation (Emitted Holds Worded)

variable {t : Target} {b : Bundle} {p : Package} {dir : Path} {files files' : FileTree}
  {codes : String → Option String}

/-- The code of classes without blanks at the end, each followed by the end of a line. -/
def packageText (codes : String → Option String) (classes : List String) : String :=
  String.join (classes.map fun c => Text.trimmedEnd ((codes c).getD "") ++ "\n")

theorem run_packageCode {outputDir : Path} {classes : List String}
    (h : ∀ c ∈ classes, ∃ code, codes c = some code ∧ Holds outputDir files c code) :
    (packageCode outputDir classes).run files = (.ok (packageText codes classes), files) := by
  induction classes with
  | nil => rfl
  | cons c classes ih =>
    obtain ⟨code, hcode, -, mapName, hslash, hread⟩ := h c List.mem_cons_self
    have hrest := ih fun d hd => h d (List.mem_cons_of_mem c hd)
    have hfirst : (FileM.reading (·.read (Compilation.artifactPath outputDir c "js"))
        (OutputError.mk (Compilation.artifactPath outputDir c "js"))).run files =
          (.ok (Compilation.withMapComment code mapName), files) := FileM.run_reading_of_ok hread
    rw [packageCode, run_bind_of_ok hfirst, run_bind_of_ok hrest,
      withoutMapComment_withMapComment hslash]
    simp only [packageText, List.map_cons, String.join_cons, hcode, Option.getD_some]
    rfl

def packagePath (dir : Path) (p : Package) : Path := dir.child ("package-" ++ toString p.id ++ ".js")

theorem trail_packagePath (dir : Path) (p : Package) :
    (packagePath dir p).trail = ("package-" ++ toString p.id ++ ".js") :: dir.trail := by
  have hdigits : '/' ∉ Nat.toDigits 10 p.id := by
    intro hmem
    cases (Json.Reader.digits_toDigits p.id).isDigit '/' hmem
  refine Path.trail_child_name dir ?_ (by simp [hdigits])
  have hlength : 8 ≤ ("package-" ++ toString p.id ++ ".js").toList.length := by
    simp only [String.toList_append, List.length_append]
    have hword : "package-".toList.length = 8 := rfl
    omega
  rintro (h | h | h) <;> rw [h] at hlength <;> revert hlength <;> decide

theorem keyOf_ne_packagePath {q : Path} {name : String} {trail : Trail}
    (hq : q.trail = name :: trail) (hdash : '-' ∉ name.toList) (p : Package) :
    FileTree.keyOf q.trail ≠ FileTree.keyOf (packagePath dir p).trail := by
  intro hkey
  have htrail := Path.trail_eq_of_key (by simp [hq]) (by simp [trail_packagePath]) hkey
  rw [hq, trail_packagePath] at htrail
  rw [(List.cons.inj htrail).1] at hdash
  exact hdash (by simp)

theorem id_eq_of_keyOf_packagePath {q : Package}
    (h : FileTree.keyOf (packagePath dir p).trail = FileTree.keyOf (packagePath dir q).trail) :
    p.id = q.id := by
  have htrail := Path.trail_eq_of_key (by simp [trail_packagePath]) (by simp [trail_packagePath]) h
  rw [trail_packagePath, trail_packagePath] at htrail
  have hdigits : Nat.toDigits 10 p.id = Nat.toDigits 10 q.id := by
    simpa [String.ext_iff] using (List.cons.inj htrail).1
  rw [← Nat.ofDigitChars_ten_toDigits (n := p.id), hdigits, Nat.ofDigitChars_ten_toDigits]

theorem touches_packageCode (outputDir : Path) (classes : List String) {places : List Trail} :
    Touches places (packageCode outputDir classes) := by
  induction classes with
  | nil => exact .pure _
  | cons c classes ih => exact (Touches.reading _ _).bind fun _ => ih.bind fun _ => .pure _

theorem touches_writePackage (t : Target) (dir : Path) (p : Package) :
    Touches [(packagePath dir p).trail] (t.writePackage dir p) := by
  rw [writePackage]
  split
  · exact .pure _
  · refine (touches_packageCode t.outputDir p.classes).bind fun code => ?_
    exact (Output.touches_write (packagePath dir p) code).bind fun _ => .pure _

theorem touches_writePackages (t : Target) (dir : Path) (l : List Package) :
    Touches (l.map fun p => (packagePath dir p).trail) (l.mapM (t.writePackage dir)) :=
  .mapM fun p hp => (touches_writePackage t dir p).of_mem (List.mem_map.2 ⟨p, hp, rfl⟩)

theorem holds_writePackages (t : Target) (dir : Path) (l : List Package) {outputDir : Path}
    {c code : String} (h : Holds outputDir files c code) :
    Holds outputDir ((l.mapM (t.writePackage dir)).run files).2 c code := by
  obtain ⟨hname, mapName, hslash, hread⟩ := h
  refine ⟨hname, mapName, hslash, (touches_writePackages t dir l).read (fun place hplace => ?_) hread⟩
  obtain ⟨p, -, rfl⟩ := List.mem_map.1 hplace
  obtain ⟨front, last, hpieces⟩ := Path.exists_pieces c
  refine keyOf_ne_packagePath (Path.trail_ofClass _ hname.plain hpieces (by decide) (by decide)) ?_ p
  have hdash : '-' ∉ last.toList := hname.not_mem (by simp [hpieces]) (by decide +kernel)
  simp [hdash]

/-- Writes a text to the file of a package. -/
def writeText (dir : Path) (p : Package) (text : String) : FileM OutputError LoadEntry := do
  Output.write (packagePath dir p) text
  return { uris := ["package-" ++ toString p.id ++ ".js"], isEmpty := p.isEmpty true, package := p }

theorem run_writePackage (hne : p.classes ≠ [])
    (h : ∀ c ∈ p.classes, ∃ code, codes c = some code ∧ Holds t.outputDir files c code) :
    (t.writePackage dir p).run files =
      (writeText dir p (packageText codes p.classes)).run files := by
  rw [writePackage, if_neg (by simpa using hne)]
  exact run_bind_of_ok (run_packageCode h)

/-! ## What is written after the packages -/

/-- Where resources and modules are copied to. -/
def copies (t : Target) (b : Bundle) : List Path :=
  b.resources.entries.map (fun e => (t.outputDir.child resourceDir).child e.1) ++
    b.application.localModules.entries.map fun e =>
      (t.applicationDir b.application).child ("modules/" ++ e.1 ++ ".js")

def laterPlaces (t : Target) (b : Bundle) : List Trail :=
  (copies t b).map Path.trail ++ [((t.applicationDir b.application).child "index.js").trail,
    ((t.applicationDir b.application).child "index.html").trail]

theorem mem_laterPlaces {q : Path} (h : q ∈ copies t b) : q.trail ∈ laterPlaces t b :=
  List.mem_append_left _ (List.mem_map_of_mem h)

theorem touches_copyResources (t : Target) (b : Bundle) :
    Touches (laterPlaces t b) (t.copyResources b.resources) := by
  refine (Touches.mapM fun e he => ?_).bind fun _ => .pure _
  refine ((Output.touches_copy _ _).of_mem (mem_laterPlaces ?_)).bind fun _ => .pure _
  exact List.mem_append_left _ (List.mem_map.2 ⟨e, he, rfl⟩)

theorem touches_writeApplication (t : Target) (b : Bundle) (packages : List LoadEntry)
    (resources : Table String) : Touches (laterPlaces t b)
      (writeApplication (t.applicationDir b.application) b packages resources) := by
  have hmodules : Touches (laterPlaces t b) (copyModules (t.applicationDir b.application) b) := by
    refine (Touches.mapM fun e he => ?_).bind fun _ => .pure _
    refine ((Output.touches_copy _ _).of_mem (mem_laterPlaces ?_)).bind fun _ => .pure _
    exact List.mem_append_right _ (List.mem_map.2 ⟨e, he, rfl⟩)
  refine hmodules.bind fun _ => ((Output.touches_write _ _).of_mem ?_).bind fun _ =>
    (Output.touches_write _ _).of_mem ?_ <;> simp [laterPlaces]

theorem keyOf_packagePath_ne_later (hdir : t.applicationDir b.application = dir)
    (hcopies : ∀ q ∈ copies t b,
      FileTree.keyOf (packagePath dir p).trail ≠ FileTree.keyOf q.trail) :
    ∀ place ∈ laterPlaces t b, FileTree.keyOf (packagePath dir p).trail ≠ FileTree.keyOf place := by
  intro place hplace
  rw [laterPlaces, hdir] at hplace
  obtain hplace | hplace := List.mem_append.1 hplace
  · obtain ⟨q, hq, rfl⟩ := List.mem_map.1 hplace
    exact hcopies q hq
  · have hindex (name : String) (hname : name = "index.js" ∨ name = "index.html") :
        FileTree.keyOf (packagePath dir p).trail ≠ FileTree.keyOf (dir.child name).trail := by
      have hplain : Path.Proper name ∧ '/' ∉ name.toList ∧ '-' ∉ name.toList := by
        obtain rfl | rfl := hname <;> simp [Path.Proper]
      exact (keyOf_ne_packagePath (Path.trail_child_name _ hplain.1 hplain.2.1) hplain.2.2 p).symm
    simp only [List.mem_cons, List.not_mem_nil, or_false] at hplace
    obtain rfl | rfl := hplace
    · exact hindex _ (.inl rfl)
    · exact hindex _ (.inr rfl)

theorem read_packagePath_later {after : List Package} {entries more : List LoadEntry}
    {files₁ : FileTree} {text : String} {u : Unit} (hdir : t.applicationDir b.application = dir)
    (hids : ∀ q ∈ after, q.id ≠ p.id)
    (hcopies : ∀ q ∈ copies t b, FileTree.keyOf (packagePath dir p).trail ≠ FileTree.keyOf q.trail)
    (hread : files.read (packagePath dir p) = .ok text)
    (hafter : (after.mapM (t.writePackage dir)).run files = (.ok more, files₁))
    (hlater : (t.copyResources b.resources >>= fun resources =>
      writeApplication dir b entries resources).run files₁ = (.ok u, files')) :
    files'.read (packagePath dir p) = .ok text := by
  have hpackages := touches_writePackages t dir after files
  rw [hafter] at hpackages
  have hsteps := ((touches_copyResources t b).bind fun resources =>
    touches_writeApplication t b entries resources) files₁
  rw [hdir, hlater] at hsteps
  refine hsteps.read (keyOf_packagePath_ne_later hdir hcopies) (hpackages.read ?_ hread)
  intro place hplace hkey
  obtain ⟨q, hq, rfl⟩ := List.mem_map.1 hplace
  exact hids q hq (id_eq_of_keyOf_packagePath hkey).symm

/-- The file of a package holds what the transformer gave for its classes, whatever that was: the map
comments that compiles have added are gone, and blanks at the end. Only a file that is copied to the same
place afterwards, or a package of the same number, can change that. -/
theorem package_undoes_mapComments {before after : List Package} (hkind : t.kind = .build)
    (hdir : t.applicationDir b.application = dir) (h : Emitted t.outputDir files codes)
    (hpackages : b.packages = before ++ p :: after) (hne : p.classes ≠ [])
    (hclasses : ∀ c ∈ p.classes, codes c ≠ none) :
    (∀ entries files₁, (before.mapM (t.writePackage dir)).run files = (.ok entries, files₁) →
      (t.writePackage dir p).run files₁ =
        (writeText dir p (packageText codes p.classes)).run files₁) ∧
    ∀ files', (t.generate b).run files = (.ok (), files') → (∀ q ∈ after, q.id ≠ p.id) →
      (∀ q ∈ copies t b, FileTree.keyOf (packagePath dir p).trail ≠ FileTree.keyOf q.trail) →
      files'.read (packagePath dir p) = .ok (packageText codes p.classes) := by
  have hwritten (entries : List LoadEntry) (files₁ : FileTree)
      (hbefore : (before.mapM (t.writePackage dir)).run files = (.ok entries, files₁)) :
      (t.writePackage dir p).run files₁ =
        (writeText dir p (packageText codes p.classes)).run files₁ := by
    refine run_writePackage hne fun c hc => ?_
    obtain ⟨code, hcode⟩ := Option.ne_none_iff_exists'.1 (hclasses c hc)
    have hholds := holds_writePackages t dir before (h.holds hcode)
    rw [hbefore] at hholds
    exact ⟨code, hcode, hholds⟩
  refine ⟨hwritten, fun files' hrun hids hcopies => ?_⟩
  rw [generate, hkind] at hrun
  obtain ⟨entries, files₃, hall, hlater⟩ := exists_of_run_bind_ok hrun
  rw [hpackages, hdir, List.mapM_append, List.mapM_cons] at hall
  obtain ⟨first, files₁, hbefore, hall⟩ := exists_of_run_bind_ok hall
  obtain ⟨others, files₂, hothers, hend⟩ := exists_of_run_bind_ok hall
  cases hend
  obtain ⟨entry, files₂, hpackage, hothers⟩ := exists_of_run_bind_ok hothers
  obtain ⟨more, files₃, hafter, hend⟩ := exists_of_run_bind_ok hothers
  cases hend
  rw [hwritten first files₁ hbefore] at hpackage
  obtain ⟨_, _, hwrite, hend⟩ := exists_of_run_bind_ok hpackage
  cases hend
  rw [hdir] at hlater
  exact read_packagePath_later hdir hids hcopies (Output.read_of_run_write hwrite) hafter hlater

def commenting : Transformer where
  name := "commenting"
  run source _ _ := .ok { code := source ++ "//# sourceMappingURL=A.map\n\t" }

def soleTarget : Target := { kind := .build, config := { kind := "build", outputPath := ⟨"/o"⟩ } }

def soleBundle : Bundle where
  application := { mainClass := "a.A", givenName := some "app" }
  parts := []
  packages := [{ id := 0, classes := ["a.C", "a.A"] }]
  environment := .empty
  resources := .empty
  projectDir := ⟨"/"⟩

def twoSources : FileTree := FileTree.put Compilation.referringFiles ["C.js"] (.file "c" 1)

def first : Except CompileError BuildInfo × FileTree :=
  (Compilation.compile Compilation.referring ({} : Snapshot).resolver commenting).run twoSources

def second : CompileRequest := { Compilation.referring with classname := "a.C", sourcePath := ⟨"/C.js"⟩ }

def commented : Except CompileError BuildInfo × FileTree :=
  (Compilation.compile second ({} : Snapshot).resolver commenting).run first.2

theorem package_undoes_mapComments_commented : ∃ codes files',
    Emitted ⟨"/o"⟩ commented.2 codes ∧ codes "a.A" = some "a.B;//# sourceMappingURL=A.map\n\t" ∧
    codes "a.C" = some "c//# sourceMappingURL=A.map\n\t" ∧
    (soleTarget.generate soleBundle).run commented.2 = (.ok (), files') ∧
    files'.read ⟨"/o/app/package-0.js"⟩ =
      .ok "c//# sourceMappingURL=A.map\na.B;//# sourceMappingURL=A.map\n" := by
  have hnames (c : String) (hc : c = "a.A" ∨ c = "a.C") : Worded c := by
    have hall : ((Text.split '.' c).all fun s => s != "" && s.toList.all Text.isIdPart) = true := by
      obtain rfl | rfl := hc <;> decide +kernel
    simpa only [Worded, List.all_eq_true, Bool.and_eq_true, bne_iff_ne] using hall
  obtain ⟨hfirst, hcode, hsecond, hcode', hok⟩ : first.1.toOption.isSome = true ∧
      Compilation.transformed? Compilation.referring commenting twoSources =
        some "a.B;//# sourceMappingURL=A.map\n\t" ∧
      commented.1.toOption.isSome = true ∧
      Compilation.transformed? second commenting first.2 =
        some "c//# sourceMappingURL=A.map\n\t" ∧
      ((soleTarget.generate soleBundle).run commented.2).1.toOption = some () := by decide +kernel
  obtain ⟨before, hbefore, hcodes, -⟩ := (Emitted.start twoSources).compiled Compilation.referring
    ({} : Snapshot).resolver commenting rfl (hnames "a.A" (.inl rfl)) hfirst hcode
  obtain ⟨codes, hemitted, hcodes', hother⟩ := hbefore.compiled second ({} : Snapshot).resolver
    commenting rfl (hnames "a.C" (.inr rfl)) hsecond hcode'
  replace hcodes : codes "a.A" = some "a.B;//# sourceMappingURL=A.map\n\t" :=
    (hother "a.A" (by decide)).trans hcodes
  replace hcodes' : codes "a.C" = some "c//# sourceMappingURL=A.map\n\t" := hcodes'
  replace hemitted : Emitted ⟨"/o"⟩ commented.2 codes := hemitted
  rcases hrun : (soleTarget.generate soleBundle).run commented.2 with ⟨outcome, files'⟩
  rw [hrun] at hok
  cases outcome with
  | error e => cases hok
  | ok u =>
    have hpackages : soleBundle.packages = [] ++ { id := 0, classes := ["a.C", "a.A"] } :: [] := rfl
    have hcopies : copies soleTarget soleBundle = [] := rfl
    have hread := (package_undoes_mapComments (t := soleTarget) rfl rfl hemitted hpackages
      (List.cons_ne_nil _ _) (by simp [hcodes, hcodes'])).2 files' hrun (by simp) (by simp [hcopies])
    refine ⟨codes, files', hemitted, hcodes, hcodes', rfl, hread.trans ?_⟩
    simp only [packageText, List.map_cons, List.map_nil, hcodes, hcodes']
    rfl

end Target

end ClassForge
