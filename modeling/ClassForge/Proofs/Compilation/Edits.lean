import ClassForge.Proofs.Compilation.Reuse

/-!
# Edits during compiles

A class may be edited while it is compiled, and several compiles of it may run at the same time. A
compile takes the time of the source before its text, so build information that bears the present time
of the source was made from its present text.
-/

namespace ClassForge

/-! ## Places of artifacts -/

theorem exists_intercalate_concat (l : List String) :
    ∃ front, ∀ s, "/".intercalate (l ++ [s]) = front ++ s := by
  by_cases hl : l = []
  · exact ⟨"", fun s => by simp [hl]⟩
  · exact ⟨"/".intercalate l ++ "/", fun s => by
      rw [String.intercalate_append_of_ne_nil hl (by simp), String.intercalate_singleton]⟩

namespace FileTree

variable {t t' : FileTree} {p : Path} {text : String} {time : UInt64}

theorem keyOf_cons_inj {trail : Trail} {s s' : String} (h : keyOf (s :: trail) = keyOf (s' :: trail)) :
    s = s' := by
  obtain ⟨front, hfront⟩ := exists_intercalate_concat trail.reverse
  simp only [keyOf, List.reverse_cons, hfront] at h
  simpa [String.ext_iff] using h

def Vacant (t : FileTree) (p : Path) : Prop := ∀ text m, t.node? p.trail ≠ some (.file text m)

theorem read_of_modified {m : UInt64} (h : t.modified p = .ok time)
    (hnode : t.node? p.trail = some (.file text m)) : t.read p = .ok text ∧ m = time := by
  obtain ⟨⟨trail, n⟩, hfound, hmodified⟩ := exists_of_bind_ok h
  have hn : some n = some (.file text m) := (find_eq hfound).symm.trans hnode
  cases hn
  cases hmodified
  refine ⟨?_, rfl⟩
  rw [read, hfound]
  rfl

end FileTree

namespace Compilation

open Json (encode)

variable {r : CompileRequest} {t t' : FileTree} {info : BuildInfo} {extension extension' : String}

theorem ends_directory (outputDir : Path) :
    (outputDir.child directory).text ≠ "" ∧ Path.Ends (outputDir.child directory).parts := by
  have hrelative : Path.isAbsolute ⟨directory⟩ = false := by decide
  by_cases hempty : outputDir.text = ""
  · have heq : outputDir.child directory = ⟨directory⟩ := by simp [Path.child, Path.join, hempty]
    rw [heq]
    exact ⟨by decide, .inr ⟨[], directory, by decide⟩⟩
  · rw [Path.parts_child hempty hrelative]
    exact ⟨Path.text_child_ne hempty hrelative, .inr ⟨outputDir.parts, directory, rfl⟩⟩

theorem trail_artifactPath (outputDir : Path) (classname : String) :
    (∀ extension, (artifactPath outputDir classname extension).trail = []) ∨
      ∃ trail stem, ∀ extension, extension ≠ "" → '/' ∉ extension.toList →
        (artifactPath outputDir classname extension).trail = (stem ++ "." ++ extension) :: trail := by
  obtain ⟨hne, hends⟩ := ends_directory outputDir
  obtain hroot | ⟨front, stem, hparts⟩ := Path.parts_ofClass hne hends classname
  · left
    intro extension
    rw [Path.trail, artifactPath, hroot]
    rfl
  · right
    refine ⟨front.foldl PathPart.lead [], stem, fun extension hextension hslash => ?_⟩
    rw [Path.trail, artifactPath, hparts extension hextension hslash, List.foldl_append]
    rfl

def extensions : List String := ["js", "js.map", "json"]

theorem keyOf_artifactPath_inj {outputDir : Path} {classname : String}
    (hextension : extension ∈ extensions)
    (hextension' : extension' ∈ extensions)
    (htrail : (artifactPath outputDir classname extension).trail ≠ [])
    (h : FileTree.keyOf (artifactPath outputDir classname extension).trail =
      FileTree.keyOf (artifactPath outputDir classname extension').trail) :
    extension = extension' := by
  have hproper : ∀ s ∈ extensions, s ≠ "" ∧ '/' ∉ s.toList := by decide
  obtain ⟨hne, hslash⟩ := hproper _ hextension
  obtain ⟨hne', hslash'⟩ := hproper _ hextension'
  obtain hroot | ⟨trail, stem, hplace⟩ := trail_artifactPath outputDir classname
  · exact absurd (hroot extension) htrail
  · rw [hplace _ hne hslash, hplace _ hne' hslash'] at h
    simpa [String.ext_iff] using FileTree.keyOf_cons_inj h

/-! ## Compiles that take turns -/

/-- What a compile of the class is given, besides its files. -/
structure Order where
  minify : Bool
  resolver : Resolver
  transformer : Transformer

def Order.request (r : CompileRequest) (order : Order) : CompileRequest :=
  { r with minify := order.minify }

/-- How far a compile has come. -/
inductive Stage where
  | asked
  | timed (time : UInt64)
  | writing (changes : List Change) (result : Except CompileError BuildInfo)
  | done (outcome : Except CompileError BuildInfo)

def proceed (r : CompileRequest) (order : Order) (t : FileTree) : Stage → Stage × FileTree
  | .asked =>
    match t.modified r.sourcePath with
    | .ok time => (.timed time, t)
    | .error e => (.done (.error (.cannotStat r.sourcePath e)), t)
  | .timed time =>
    match t.read r.sourcePath with
    | .ok source =>
      let p := plan (order.request r) order.resolver order.transformer time source
      (.writing (p.writes.flatMap changesOf) p.result, t)
    | .error e => (.done (.error (.cannotRead r.sourcePath e)), t)
  | .writing (change :: rest) result =>
    match change.apply.run t with
    | (.ok _, t') => (.writing rest result, t')
    | (.error e, t') => (.done (.error e), t')
  | .writing [] result => (.done result, t)
  | .done outcome => (.done outcome, t)

/-- The files, and the compiles of the class that have been started. -/
structure Workplace where
  files : FileTree
  compiles : List (Order × Stage) := []

inductive Turn where
  | edit (text : String) (time : UInt64)
  | start (order : Order)
  /-- A compile takes a step. -/
  | proceed (k : Nat)
  /-- The time that written files get changes. -/
  | tick (now : UInt64)

def edited (r : CompileRequest) (t : FileTree) (text : String) (time : UInt64) : FileTree :=
  match t.modified r.sourcePath, t.writeAt r.sourcePath text time with
  | .ok m, .ok t' => if m < time then t' else t
  | _, _ => t

def act (r : CompileRequest) (w : Workplace) : Turn → Workplace
  | .edit text time => { w with files := edited r w.files text time }
  | .start order => { w with compiles := w.compiles ++ [(order, .asked)] }
  | .proceed k =>
    match w.compiles[k]? with
    | some (order, stage) =>
      let next := proceed r order w.files stage
      { files := next.2, compiles := w.compiles.set k (order, next.1) }
    | none => w
  | .tick now => { w with files := { w.files with now } }

theorem edited_cases (r : CompileRequest) (t : FileTree) (text : String) (time : UInt64) :
    edited r t text time = t ∨ ∃ m, t.modified r.sourcePath = .ok m ∧ m < time ∧
      t.writeAt r.sourcePath text time = .ok (edited r t text time) := by
  rw [edited]
  split
  · next m t' hmodified hwrite =>
    split_ifs with hlt
    · exact .inr ⟨m, hmodified, hlt, hwrite⟩
    · exact .inl rfl
  · exact .inl rfl

/-! ### A compile without others -/

def Finishes (r : CompileRequest) (order : Order) (stage : Stage) (t : FileTree)
    (outcome : Except CompileError BuildInfo) (t' : FileTree) : Prop :=
  ∃ n, ∀ earlier, (List.replicate n (.proceed earlier.length)).foldl (act r)
      { files := t, compiles := earlier ++ [(order, stage)] } =
    { files := t', compiles := earlier ++ [(order, .done outcome)] }

section

variable {order : Order} {stage next : Stage} {outcome result : Except CompileError BuildInfo}

theorem finishes_done : Finishes r order (.done outcome) t outcome t := ⟨0, fun _ => rfl⟩

theorem Finishes.step {t₁ : FileTree} (hnext : proceed r order t stage = (next, t₁))
    (h : Finishes r order next t₁ outcome t') : Finishes r order stage t outcome t' := by
  obtain ⟨n, hn⟩ := h
  refine ⟨n + 1, fun earlier => ?_⟩
  rw [List.replicate_succ, List.foldl_cons, ← hn earlier]
  simp [act, hnext]

theorem finishes_writing {f : PUnit → FileM CompileError BuildInfo} {changes : List Change}
    (hf : ∀ t, (f ⟨⟩).run t = (result, t))
    (h : (changes.forM Change.apply >>= f).run t = (outcome, t')) :
    Finishes r order (.writing changes result) t outcome t' := by
  induction changes generalizing t with
  | nil =>
    obtain ⟨rfl, rfl⟩ : result = outcome ∧ t = t' := by
      have hrun : (f ⟨⟩).run t = (outcome, t') := h
      rw [hf] at hrun
      exact Prod.mk.inj hrun
    exact .step rfl finishes_done
  | cons change changes ih =>
    rw [List.forM_eq_forM, List.forM_cons, bind_assoc] at h
    cases hchange : change.apply.run t with
    | mk first t₁ =>
      cases first with
      | error e =>
        rw [run_bind_of_error hchange] at h
        cases h
        exact .step (by simp only [proceed, hchange]) finishes_done
      | ok u =>
        rw [run_bind_of_ok hchange] at h
        exact .step (by simp only [proceed, hchange]) (ih h)

theorem finishes_compile
    (h : (compile (order.request r) order.resolver order.transformer).run t = (outcome, t')) :
    Finishes r order .asked t outcome t' := by
  cases htime : t.modified r.sourcePath with
  | error e =>
    have hstat : (FileM.reading (·.modified r.sourcePath) (CompileError.cannotStat r.sourcePath)).run t =
      (.error (.cannotStat r.sourcePath e), t) := FileM.run_reading_of_error htime
    cases (run_bind_of_error hstat).symm.trans h
    exact .step (by simp only [proceed, htime]) finishes_done
  | ok time =>
    have hstat : (FileM.reading (·.modified r.sourcePath) (CompileError.cannotStat r.sourcePath)).run t =
      (.ok time, t) := FileM.run_reading_of_ok htime
    replace h := (run_bind_of_ok hstat).symm.trans h
    have hnext : proceed r order t .asked = (.timed time, t) := by simp only [proceed, htime]
    refine .step hnext ?_
    cases hsource : t.read r.sourcePath with
    | error e =>
      have hread : (FileM.reading (·.read r.sourcePath) (CompileError.cannotRead r.sourcePath)).run t =
        (.error (.cannotRead r.sourcePath e), t) := FileM.run_reading_of_error hsource
      cases (run_bind_of_error hread).symm.trans h
      exact .step (by simp only [proceed, hsource]) finishes_done
    | ok source =>
      have hread : (FileM.reading (·.read r.sourcePath) (CompileError.cannotRead r.sourcePath)).run t =
        (.ok source, t) := FileM.run_reading_of_ok hsource
      replace h := (run_bind_of_ok hread).symm.trans h
      dsimp only at h
      rw [forM_writeArtifact_eq fun _ => rfl] at h
      refine .step (by simp only [proceed, hsource]; rfl) (finishes_writing (fun t => ?_) h)
      cases (plan (order.request r) order.resolver order.transformer time source).result <;> rfl

end

/-! ## What stays true -/

def Valid (r : CompileRequest) (t : FileTree) (info : BuildInfo) : Prop :=
  ∃ text m, t.node? r.sourcePath.trail = some (.file text m) ∧ info.sourceTime ≤ m ∧
    (info.sourceTime = m → info.hash = hashOf text)

/-- A change that writes valid build information, or something else than that. -/
def Change.Safe (r : CompileRequest) (t : FileTree) : Change → Prop
  | create _ => True
  | write file text =>
    (∃ extension ∈ extensions, extension ≠ "json" ∧
      file = artifactPath r.outputDir r.classname extension) ∨
    file = infoPath r ∧ ∃ info, text = (encode info).pretty ∧ Valid r t info

/-- A compile that does not know of a later time of the source than it has, and writes no build
information that is not valid. -/
def Stage.Safe (r : CompileRequest) (t : FileTree) : Stage → Prop
  | asked | done _ => True
  | timed time => ∃ text m, t.node? r.sourcePath.trail = some (.file text m) ∧ time ≤ m
  | writing changes _ => ∀ change ∈ changes, change.Safe r t

structure Workplace.Sound (r : CompileRequest) (w : Workplace) : Prop where
  source : ∃ text m, w.files.node? r.sourcePath.trail = some (.file text m)
  stored : ∀ {text m info}, w.files.node? (infoPath r).trail = some (.file text m) →
    infoOfText? text = some info → Valid r w.files info
  compiles : ∀ c ∈ w.compiles, c.2.Safe r w.files

def Later (r : CompileRequest) (t t' : FileTree) : Prop :=
  ∀ text m, t.node? r.sourcePath.trail = some (.file text m) →
    ∃ text' m', t'.node? r.sourcePath.trail = some (.file text' m') ∧ m ≤ m' ∧ (m = m' → text = text')

theorem Later.of_same (h : ∀ text m, t.node? r.sourcePath.trail = some (.file text m) →
    t'.node? r.sourcePath.trail = some (.file text m)) : Later r t t' :=
  fun text m hnode => ⟨text, m, h text m hnode, UInt64.le_refl m, fun _ => rfl⟩

theorem Valid.later (h : Valid r t info) (hlater : Later r t t') : Valid r t' info := by
  obtain ⟨text, m, hnode, hle, hhash⟩ := h
  obtain ⟨text', m', hnode', hle', htext⟩ := hlater text m hnode
  refine ⟨text', m', hnode', UInt64.le_trans hle hle', fun heq => ?_⟩
  -- Times only grow, so a source that has the time of the information has had it all along.
  obtain rfl : info.sourceTime = m := UInt64.le_antisymm hle (heq ▸ hle')
  rw [hhash rfl, htext heq]

theorem Change.Safe.later {change : Change} (h : change.Safe r t) (hlater : Later r t t') :
    change.Safe r t' := by
  cases change with
  | create d => trivial
  | write file text => exact h.imp_right fun hinfo =>
      ⟨hinfo.1, hinfo.2.imp fun _ hvalid => ⟨hvalid.1, hvalid.2.later hlater⟩⟩

theorem Stage.Safe.later {stage : Stage} (h : stage.Safe r t) (hlater : Later r t t') :
    stage.Safe r t' := by
  cases stage with
  | asked | done _ => trivial
  | timed time =>
    obtain ⟨text, m, hnode, hle⟩ := h
    obtain ⟨text', m', hnode', hle', -⟩ := hlater text m hnode
    exact ⟨text', m', hnode', UInt64.le_trans hle hle'⟩
  | writing changes result => exact fun change hchange => (h change hchange).later hlater

structure Kept (r : CompileRequest) (t t' : FileTree) : Prop where
  source : Later r t t'
  stored : ∀ text m, t'.node? (infoPath r).trail = some (.file text m) →
    t.node? (infoPath r).trail = some (.file text m) ∨
      ∀ info, infoOfText? text = some info → Valid r t' info

theorem Kept.of_same (hsource : ∀ text m, t.node? r.sourcePath.trail = some (.file text m) →
      t'.node? r.sourcePath.trail = some (.file text m))
    (hinfo : ∀ text m, t'.node? (infoPath r).trail = some (.file text m) →
      t.node? (infoPath r).trail = some (.file text m)) : Kept r t t' where
  source := .of_same hsource
  stored text m hnode := .inl (hinfo text m hnode)

theorem Kept.refl : Kept r t t := .of_same (fun _ _ h => h) fun _ _ h => h

theorem Workplace.Sound.of_kept {w : Workplace} {compiles : List (Order × Stage)} (h : w.Sound r)
    (hkept : Kept r w.files t') (hcompiles : ∀ c ∈ compiles, c ∈ w.compiles ∨ c.2.Safe r t') :
    Workplace.Sound r { files := t', compiles } where
  source := by
    obtain ⟨text, m, hnode⟩ := h.source
    obtain ⟨text', m', hnode', -⟩ := hkept.source text m hnode
    exact ⟨text', m', hnode'⟩
  stored := by
    intro text m info hnode hinfo
    obtain hbefore | hvalid := hkept.stored text m hnode
    · exact (h.stored hbefore hinfo).later hkept.source
    · exact hvalid info hinfo
  compiles := by
    intro c hc
    obtain hbefore | hsafe := hcompiles c hc
    · exact (h.compiles c hbefore).later hkept.source
    · exact hsafe

/-! ### What a compile writes -/

theorem of_mem_plan_writes {resolver : Resolver} {transformer : Transformer} {time : UInt64}
    {source text : String} {file : Path}
    (h : (file, text) ∈ (plan r resolver transformer time source).writes) :
    (∃ extension ∈ extensions, extension ≠ "json" ∧
      file = artifactPath r.outputDir r.classname extension) ∨
    file = infoPath r ∧ ∃ info : BuildInfo, text = (encode info).pretty ∧ info.sourceTime = time ∧
      info.hash = hashOf source := by
  unfold plan at h
  split at h
  · cases h
  · next analysis hanalysis =>
    dsimp only at h
    split at h
    · cases h
    · next message hfailed =>
      simp only [List.mem_singleton, Prod.mk.injEq] at h
      exact .inr ⟨h.1, _, h.2, rfl, rfl⟩
    · next output houtput =>
      simp only [List.mem_append, List.mem_singleton, Option.mem_toList, Option.map_eq_some_iff,
        Prod.mk.injEq] at h
      obtain (⟨hfile, -⟩ | ⟨map, -, hfile, -⟩) | ⟨hfile, htext⟩ := h
      · exact .inl ⟨"js", by decide, by decide, hfile⟩
      · exact .inl ⟨"js.map", by decide, by decide, hfile.symm⟩
      · exact .inr ⟨hfile, _, htext, rfl, rfl⟩

theorem safe_of_plan {order : Order} {time m : UInt64} {source : String}
    (hnode : t.node? r.sourcePath.trail = some (.file source m)) (hle : time ≤ m) :
    ∀ change ∈ (plan (order.request r) order.resolver order.transformer time source).writes.flatMap
      changesOf, change.Safe r t := by
  intro change hchange
  obtain ⟨written, hwritten, hchange⟩ := List.mem_flatMap.1 hchange
  rw [changesOf, List.mem_append, Option.mem_toList, Option.map_eq_some_iff,
    List.mem_singleton] at hchange
  obtain ⟨d, -, rfl⟩ | rfl := hchange
  · trivial
  · refine (of_mem_plan_writes hwritten).imp id (And.imp_right ?_)
    rintro ⟨info, htext, rfl, hhash⟩
    exact ⟨info, htext, source, m, hnode, hle, fun _ => hhash⟩

def Apart (r : CompileRequest) : Prop :=
  ∀ extension ∈ extensions, (artifactPath r.outputDir r.classname extension).trail ≠ [] →
    FileTree.keyOf r.sourcePath.trail ≠
      FileTree.keyOf (artifactPath r.outputDir r.classname extension).trail

theorem apart_of_vacant {text : String} (hsource : t.read r.sourcePath = .ok text)
    (hvacant : ∀ extension ∈ extensions, t.Vacant (artifactPath r.outputDir r.classname extension)) :
    Apart r := by
  intro extension hextension htrail hkey
  obtain ⟨m, hnode⟩ := FileTree.read_eq hsource
  have hne : r.sourcePath.trail ≠ [] := by
    intro hnil
    rw [hnil] at hnode
    cases hnode
  rw [FileTree.node?_eq_of_key htrail hne hkey] at hnode
  exact hvacant extension hextension text m hnode

theorem Change.Safe.apply {change : Change} {outcome : Except CompileError Unit} (hapart : Apart r)
    (h : change.Safe r t) (hrun : change.apply.run t = (outcome, t')) : Kept r t t' := by
  cases change with
  | create d =>
    rw [Change.apply, FileM.run_changing] at hrun
    cases hcreate : t.createDirectories d with
    | error e =>
      rw [hcreate] at hrun
      cases hrun
      exact .refl
    | ok t₁ =>
      rw [hcreate] at hrun
      cases hrun
      have hsame := FileTree.sameFiles_createDirectories hcreate
      exact .of_same (fun _ _ => (hsame ..).2) fun _ _ => (hsame ..).1
  | write file written =>
    rw [Change.apply, FileM.run_changing] at hrun
    cases hwrite : t.write file written with
    | error e =>
      rw [hwrite] at hrun
      cases hrun
      exact .refl
    | ok t₁ =>
      rw [hwrite] at hrun
      cases hrun
      have htrail := FileTree.trail_ne_nil_of_writeAt hwrite
      obtain ⟨extension, hextension, hne, rfl⟩ | ⟨rfl, info, rfl, hvalid⟩ := h
      · have hsource := FileTree.node?_writeAt_of_ne hwrite (hapart extension hextension htrail)
        have hinfo : t'.node? (infoPath r).trail = t.node? (infoPath r).trail :=
          FileTree.node?_writeAt_of_ne hwrite fun hkey =>
            hne (keyOf_artifactPath_inj hextension (by decide) htrail hkey.symm)
        exact .of_same (fun _ _ => hsource.trans) fun _ _ => hinfo.symm.trans
      · have hsource := FileTree.node?_writeAt_of_ne hwrite (hapart "json" (by decide) htrail)
        have hlater : Later r t t' := .of_same fun _ _ => hsource.trans
        refine ⟨hlater, fun text m hnode => .inr fun info' hinfo' => ?_⟩
        cases hnode.symm.trans (FileTree.node?_writeAt_self hwrite)
        cases hinfo'.symm.trans (infoOfText?_pretty info)
        exact hvalid.later hlater

/-! ### Turns -/

theorem kept_edited (hapart : Apart r) (text : String) (time : UInt64) :
    Kept r t (edited r t text time) := by
  obtain hsame | ⟨m, hm, hlt, hwrite⟩ := edited_cases r t text time
  · rw [hsame]
    exact .refl
  · constructor
    · intro text' m' hnode
      obtain rfl := (FileTree.read_of_modified hm hnode).2
      exact ⟨text, time, FileTree.node?_writeAt_self hwrite, UInt64.le_of_lt hlt,
        fun heq => absurd heq (UInt64.ne_of_lt hlt)⟩
    · intro text' m' hnode
      have htrail : (infoPath r).trail ≠ [] := by
        intro hnil
        rw [hnil] at hnode
        cases hnode
      have hkey := (hapart "json" (by decide) htrail).symm
      exact .inl ((FileTree.node?_writeAt_of_ne hwrite hkey).symm.trans hnode)

theorem Stage.Safe.proceed {stage : Stage} (hapart : Apart r)
    (hsource : ∃ text m, t.node? r.sourcePath.trail = some (.file text m)) (h : stage.Safe r t)
    (order : Order) : Kept r t (Compilation.proceed r order t stage).2 ∧
      (Compilation.proceed r order t stage).1.Safe r (Compilation.proceed r order t stage).2 := by
  obtain ⟨text, m, hnode⟩ := hsource
  cases stage with
  | asked =>
    rw [Compilation.proceed]
    split
    · next time htime =>
      obtain rfl := (FileTree.read_of_modified htime hnode).2
      exact ⟨.refl, text, m, hnode, UInt64.le_refl m⟩
    · exact ⟨.refl, trivial⟩
  | timed time =>
    rw [Compilation.proceed]
    split
    · next source hread =>
      -- The source may be newer by now than the time that was taken, but not older.
      obtain ⟨text', m', hnode', hle⟩ := h
      obtain ⟨m'', hnode''⟩ := FileTree.read_eq hread
      cases hnode'.symm.trans hnode''
      exact ⟨.refl, safe_of_plan hnode'' hle⟩
    · exact ⟨.refl, trivial⟩
  | writing changes result =>
    cases changes with
    | nil => exact ⟨.refl, trivial⟩
    | cons change rest =>
      obtain ⟨hchange, hrest⟩ := List.forall_mem_cons.1 h
      rw [Compilation.proceed]
      split
      · next t₁ hrun =>
        have hkept := hchange.apply hapart hrun
        exact ⟨hkept, fun c hc => (hrest c hc).later hkept.source⟩
      · next e t₁ hrun => exact ⟨hchange.apply hapart hrun, trivial⟩
  | done outcome => exact ⟨.refl, trivial⟩

theorem Workplace.Sound.act {w : Workplace} (hapart : Apart r) (h : w.Sound r) (turn : Turn) :
    (Compilation.act r w turn).Sound r := by
  cases turn with
  | edit text time =>
    exact h.of_kept (kept_edited hapart text time) fun c hc => .inl hc
  | start order =>
    refine h.of_kept .refl fun c hc => ?_
    obtain hc | hc := List.mem_append.1 hc
    · exact .inl hc
    · rw [List.mem_singleton.1 hc]
      exact .inr trivial
  | proceed k =>
    rw [Compilation.act]
    split
    · next order stage hk =>
      obtain ⟨hkept, hsafe⟩ := (h.compiles _ (List.mem_of_getElem? hk)).proceed hapart h.source order
      refine h.of_kept hkept fun c hc => ?_
      obtain hc | rfl := List.mem_or_eq_of_mem_set hc
      · exact .inl hc
      · exact .inr hsafe
    · exact h
  | tick now =>
    exact h.of_kept (.of_same (fun _ _ hnode => hnode) fun _ _ hnode => hnode) fun c hc => .inl hc

theorem Workplace.Sound.run {w : Workplace} (hapart : Apart r) (h : w.Sound r) (schedule : List Turn) :
    (schedule.foldl (Compilation.act r) w).Sound r := by
  induction schedule generalizing w with
  | nil => exact h
  | cons turn schedule ih => exact ih (h.act hapart turn)

theorem sound_of_vacant {text : String} (hsource : t.read r.sourcePath = .ok text)
    (hvacant : ∀ extension ∈ extensions, t.Vacant (artifactPath r.outputDir r.classname extension)) :
    Workplace.Sound r { files := t } where
  source := ⟨text, FileTree.read_eq hsource⟩
  stored hnode := absurd hnode (hvacant "json" (by decide) _ _)
  compiles c hc := by cases hc

theorem Workplace.Sound.reused {w : Workplace} (h : w.Sound r)
    (hreused : reusable? w.files r.outputDir r.classname r.sourcePath = some info) :
    ∃ text, w.files.read r.sourcePath = .ok text ∧ info.hash = hashOf text := by
  obtain ⟨_, stored, htime, -, hread, hinfo, -⟩ := reusable?_eq_some.1 hreused
  obtain ⟨m, hnode⟩ := FileTree.read_eq hread
  obtain ⟨text, m', hsource, -, hhash⟩ := h.stored hnode hinfo
  obtain ⟨htext, rfl⟩ := FileTree.read_of_modified htime hsource
  exact ⟨text, htext, hhash rfl⟩

/-- However edits that make the source newer and compiles of it take turns, no edit is hidden by what
an older compile has written. A compile that is left alone does what a compile does. -/
theorem edits_never_hidden {text : String} (hsource : t.read r.sourcePath = .ok text)
    (hvacant : ∀ extension ∈ extensions, t.Vacant (artifactPath r.outputDir r.classname extension))
    (schedule : List Turn) (w : Workplace) (hw : w = schedule.foldl (act r) { files := t }) :
    (∀ info, reusable? w.files r.outputDir r.classname r.sourcePath = some info →
      ∃ text, w.files.read r.sourcePath = .ok text ∧ info.hash = hashOf text) ∧
    ∀ order : Order, ∃ n,
      (.start order :: List.replicate n (.proceed w.compiles.length)).foldl (act r) w =
        { files := ((compile (order.request r) order.resolver order.transformer).run w.files).2
          compiles := w.compiles ++
            [(order, .done
              ((compile (order.request r) order.resolver order.transformer).run w.files).1)] } := by
  have hsound : w.Sound r := by
    rw [hw]
    exact (sound_of_vacant hsource hvacant).run (apart_of_vacant hsource hvacant) schedule
  refine ⟨fun info => hsound.reused, fun order => ?_⟩
  have hfinishes : Finishes r order .asked w.files _ _ := finishes_compile rfl
  obtain ⟨n, hn⟩ := hfinishes
  exact ⟨n, hn w.compiles⟩

def plainOrder : Order :=
  { minify := false, resolver := ({} : Snapshot).resolver, transformer := .passthrough }

def editedBeforeRead : List Turn :=
  [Turn.start plainOrder, .proceed 0, .edit "a.C;" 5, .tick 6] ++ List.replicate 9 (Turn.proceed 0)

theorem edits_never_hidden_before_read :
    ∃ turns info,
      let w := (editedBeforeRead ++ turns).foldl (act referring) { files := referringFiles }
      reusable? w.files referring.outputDir referring.classname referring.sourcePath = some info ∧
        w.files.read referring.sourcePath = .ok "a.C;" ∧ info.hash = hashOf "a.C;" := by
  have hsource : referringFiles.read referring.sourcePath = .ok "a.B;" := by decide +kernel
  have hnone : ∀ extension ∈ extensions,
      referringFiles.node?
        (artifactPath referring.outputDir referring.classname extension).trail = none := by
    decide +kernel
  have hvacant : ∀ extension ∈ extensions,
      referringFiles.Vacant (artifactPath referring.outputDir referring.classname extension) := by
    intro extension hextension text m hnode
    cases (hnone extension hextension).symm.trans hnode
  have hfiles :
      let w := editedBeforeRead.foldl (act referring) { files := referringFiles }
      let run := (compile (plainOrder.request referring) plainOrder.resolver plainOrder.transformer).run
        w.files
      w.files.modified referring.sourcePath = .ok 5 ∧ run.1.toOption.isSome = true ∧
        run.2.read referring.sourcePath = .ok "a.C;" ∧ run.2.modified referring.sourcePath = .ok 5 ∧
        run.2.modified (artifactPath referring.outputDir referring.classname "js") = .ok 6 := by
    decide +kernel
  obtain ⟨n, hturns⟩ :=
    (edits_never_hidden hsource hvacant editedBeforeRead _ rfl).2 plainOrder
  rw [← List.foldl_append] at hturns
  generalize hw : editedBeforeRead.foldl (act referring) { files := referringFiles } = w at hfiles hturns
  dsimp only at hfiles
  cases hrun : (compile (plainOrder.request referring) plainOrder.resolver
    plainOrder.transformer).run w.files with
  | mk outcome t₁ =>
    rw [hrun] at hfiles hturns
    obtain ⟨hbefore, hok, hread, hmodified, hcode⟩ := hfiles
    cases outcome with
    | error e => cases hok
    | ok info =>
      have hcompiled := compiled_of_run hrun
      have htime : info.sourceTime = 5 := by
        obtain ⟨time, text, analysis, htime, -, -, rfl⟩ := hcompiled.source
        exact Except.ok.inj (htime.symm.trans hbefore)
      have hle : (5 : UInt64) ≤ 6 := by decide
      have hreused : reusable? t₁ referring.outputDir referring.classname referring.sourcePath =
          some info := by
        refine reusable?_eq_some.2 ⟨6, _, ?_, hcode, hcompiled.stored, infoOfText?_pretty _, ?_⟩
        · rw [htime, hmodified]
        · rw [htime]
          exact hle
      refine ⟨.start plainOrder :: List.replicate n (.proceed w.compiles.length), info, ?_⟩
      dsimp only
      rw [hturns]
      obtain ⟨text, htext, hhash⟩ := (edits_never_hidden hsource hvacant _ _ hturns.symm).1 info hreused
      cases htext.symm.trans hread
      exact ⟨hreused, hread, hhash⟩

end Compilation

end ClassForge
