import ClassForge.Proofs.Metadata.History

/-!
# Operations on the metadata

Besides the edits of a project there are the checks of environment settings and what is loaded from
the files. Every operation puts what is read of a file in place, removes a file, takes a stored class,
or leaves all tables as they are up to what reconciling derives. What these four keep holds of
metadata however it has come about.
-/

namespace ClassForge

def ClassRecord.SameOrigin (r r' : ClassRecord) : Prop :=
  r'.version = r.version ∧ r'.sourceFilename = r.sourceFilename

theorem ClassRecord.sameOrigin_reconcile (g : Hierarchy) (record? : String → Option ClassRecord)
    (r : ClassRecord) : r.SameOrigin (r.reconcile g record?) := by
  obtain ⟨members, properties, h⟩ := r.reconcile_eq g record?
  rw [h]
  exact ⟨rfl, rfl⟩

namespace Metadata

variable {m m' : Metadata} {c : String} {file : Path} {result : Except StoreError (Option String)}

theorem mem_classnames : c ∈ m.classnames ↔ ∃ r, m.record? c = some r := Table.mem_keys

/-! ## Renewed metadata -/

structure Renewed (m m' : Metadata) : Prop where
  files : m'.files = m.files
  packages : m'.packages = m.packages
  records : ∀ c, Option.Rel ClassRecord.SameOrigin (m.record? c) (m'.record? c)

theorem Renewed.of_records_eq (hfiles : m'.files = m.files) (hpackages : m'.packages = m.packages)
    (hrecords : m'.records = m.records) : m.Renewed m' := by
  refine ⟨hfiles, hpackages, fun c => ?_⟩
  rw [record?, record?, hrecords]
  cases m.records.get? c with
  | none => exact .none
  | some r => exact .some ⟨rfl, rfl⟩

theorem Renewed.refl (m : Metadata) : m.Renewed m := .of_records_eq rfl rfl rfl

theorem Renewed.record? (h : m.Renewed m') {r' : ClassRecord} (hr : m'.record? c = some r') :
    ∃ r, m.record? c = some r ∧ r.SameOrigin r' := by
  have hrel := h.records c
  rw [hr] at hrel
  cases hsource : m.record? c with
  | none =>
    rw [hsource] at hrel
    cases hrel
  | some r =>
    rw [hsource] at hrel
    cases hrel with
    | some hsame => exact ⟨r, rfl, hsame⟩

theorem Renewed.mem_classnames (h : m.Renewed m') : c ∈ m'.classnames ↔ c ∈ m.classnames := by
  rw [Metadata.mem_classnames, Metadata.mem_classnames, ← Option.isSome_iff_exists,
    ← Option.isSome_iff_exists]
  have hrel := h.records c
  generalize m.record? c = r, m'.record? c = r' at hrel
  cases hrel <;> rfl

theorem Renewed.trans {m₁ m₂ m₃ : Metadata} (h : m₁.Renewed m₂) (h' : m₂.Renewed m₃) :
    m₁.Renewed m₃ := by
  refine ⟨h'.files.trans h.files, h'.packages.trans h.packages, fun c => ?_⟩
  have hfirst := h.records c
  have hsecond := h'.records c
  generalize m₁.record? c = r₁, m₂.record? c = r₂, m₃.record? c = r₃ at hfirst hsecond
  cases hfirst with
  | none =>
    cases hsecond
    exact .none
  | some hsame =>
    cases hsecond with
    | some hsame' => exact .some ⟨hsame'.1.trans hsame.1, hsame'.2.trans hsame.2⟩

theorem renewed_markDirty (m : Metadata) (c : String) : m.Renewed (m.markDirty c) := by
  rw [markDirty]
  split
  · exact .of_records_eq rfl rfl rfl
  · exact .refl m

theorem renewed_addEnvironmentChecks (m : Metadata) (checks : Table String) :
    m.Renewed (m.addEnvironmentChecks checks) := .of_records_eq rfl rfl rfl

theorem renewed_insert_reconcile {r : ClassRecord} (hr : m.record? c = some r) (g : Hierarchy) :
    m.Renewed { m with records := m.records.insert c (r.reconcile g m.record?) } := by
  refine ⟨rfl, rfl, fun x => ?_⟩
  by_cases hx : x = c
  · subst hx
    simp only [record?, Table.get?_insert_self] at hr ⊢
    rw [hr]
    exact .some (r.sameOrigin_reconcile g m.records.get?)
  · simp only [record?, Table.get?_insert_of_ne hx]
    exact (Renewed.refl m).records x

theorem renewed_reconcile (m : Metadata) (t : FileTree) : m.Renewed (m.reconcile t).2.1 :=
  kept_reconcile (P := m.Renewed) (fun _ g _ _ hr h => h.trans (renewed_insert_reconcile hr g))
    (fun _ h => ⟨h.files, h.packages, h.records⟩) (.refl m) t

theorem lastModified_reconcile (m : Metadata) (t : FileTree) (c : String) :
    ((m.reconcile t).2.1.record? c).map ClassRecord.lastModified =
      (m.record? c).map ClassRecord.lastModified := by
  refine kept_reconcile
    (P := fun m' => (m'.record? c).map ClassRecord.lastModified =
      (m.record? c).map ClassRecord.lastModified) (fun m' g d r hr h => ?_) (fun _ h => h) rfl t
  rw [← h]
  by_cases hc : c = d
  · subst hc
    obtain ⟨members, properties, heq⟩ := r.reconcile_eq g m'.record?
    simp only [record?, Table.get?_insert_self] at hr heq ⊢
    rw [hr, heq]
    rfl
  · simp only [record?, Table.get?_insert_of_ne hc]

/-! ## Single steps -/

def vacated (m : Metadata) (file : Path) (classname : String) : Metadata :=
  match m.classOf? file with
  | some p => if p = classname then m else m.forget p
  | none => m

theorem files_stage (m : Metadata) (file : Path) (time : UInt64) (x : ClassRecord.Extraction) :
    (m.stage file time x).files = m.files.insert file.plain x.record.classname := by
  rw [stage]
  cases m.classOf? file with
  | none => rfl
  | some p =>
    dsimp only
    split <;> rfl

theorem records_stage (m : Metadata) (file : Path) (time : UInt64) (x : ClassRecord.Extraction) :
    (m.stage file time x).records =
      (m.vacated file x.record.classname).records.insert x.record.classname (staged file time x) := by
  rw [stage, vacated]
  cases m.classOf? file with
  | none => rfl
  | some p =>
    dsimp only
    split <;> rfl

theorem packages_stage (m : Metadata) (file : Path) (time : UInt64) (x : ClassRecord.Extraction) :
    (m.stage file time x).packages =
      markPackages (m.vacated file x.record.classname).packages x.record.classname := by
  rw [stage, vacated]
  cases m.classOf? file with
  | none => rfl
  | some p =>
    dsimp only
    split <;> rfl

theorem record?_forget (m : Metadata) (p c : String) :
    (m.forget p).record? c = if c = p then none else m.record? c := Table.get?_erase m.records c p

theorem classOf?_stage (m : Metadata) (file : Path) (time : UInt64) (x : ClassRecord.Extraction)
    (other : Path) :
    (m.stage file time x).classOf? other =
      if other.plain = file.plain then some x.record.classname else m.classOf? other := by
  rw [classOf?, files_stage, Table.get?_insert]
  rfl

theorem record?_stage (m : Metadata) (file : Path) (time : UInt64) (x : ClassRecord.Extraction)
    (c : String) :
    (m.stage file time x).record? c =
      if c = x.record.classname then some (staged file time x)
      else if m.classOf? file = some c then none else m.record? c := by
  rw [record?, records_stage, Table.get?_insert]
  split
  · rfl
  · next hc =>
    rw [← record?, vacated]
    cases m.classOf? file with
    | none => simp
    | some p =>
      dsimp only
      by_cases hp : p = x.record.classname
      · have hne : p ≠ c := fun h => hc (h ▸ hp)
        simp [hp, Ne.symm hc]
      · rw [if_neg hp, record?_forget]
        simp [eq_comm]

theorem mem_classnames_stage (m : Metadata) (file : Path) (time : UInt64)
    (x : ClassRecord.Extraction) :
    c ∈ (m.stage file time x).classnames ↔
      c = x.record.classname ∨ c ∈ m.classnames ∧ m.classOf? file ≠ some c := by
  rw [mem_classnames, mem_classnames, record?_stage]
  by_cases hc : c = x.record.classname
  · simp [hc]
  · by_cases hfile : m.classOf? file = some c <;> simp [hc, hfile]

inductive Removal (m : Metadata) (file : Path) :
    Except StoreError (Option String) → Metadata → Prop where
  | unknown : m.classOf? file = none → Removal m file (.ok none) m
  | failed {c : String} (e : StoreError) : m.classOf? file = some c →
      Removal m file (.error e) { m with files := m.files.erase file.plain }
  | dropped {c : String} (dirty : NameSet) : m.classOf? file = some c →
      Removal m file (.ok (some c))
        { ({ m with files := m.files.erase file.plain } : Metadata).forget c with dirty }

theorem removal_removeFile (m : Metadata) (file : Path) (t : FileTree) :
    m.Removal file (m.removeFile file t).1 (m.removeFile file t).2.1 := by
  rw [removeFile]
  cases hc : m.classOf? file with
  | none => exact .unknown hc
  | some c =>
    dsimp only
    generalize (if m.records.contains c then
      ClassRecord.remove (ClassRecord.storePath m.rootDir c) else pure ()).run t = removal
    rcases removal with ⟨e | _, t'⟩
    · exact .failed e hc
    · exact .dropped _ hc

theorem Removal.rootDir (h : m.Removal file result m') : m'.rootDir = m.rootDir := by
  cases h <;> rfl

theorem Removal.classOf?_eq {o : Option String} (h : m.Removal file (.ok o) m') :
    m.classOf? file = o := by
  cases h <;> assumption

theorem Removal.record? (h : m.Removal file result m') (c : String) :
    m'.record? c = if result = .ok (some c) then none else m.record? c := by
  cases h with
  | unknown => simp
  | failed => simp [Metadata.record?]
  | @dropped p dirty =>
    change (Metadata.forget _ p).record? c = _
    rw [record?_forget]
    simp only [Except.ok.injEq, Option.some.injEq, eq_comm]
    rfl

theorem Removal.mem_classnames (h : m.Removal file result m') :
    c ∈ m'.classnames ↔ c ∈ m.classnames ∧ result ≠ .ok (some c) := by
  rw [Metadata.mem_classnames, Metadata.mem_classnames, h.record?]
  split_ifs with hresult <;> simp [hresult]

theorem Removal.classOf? (h : m.Removal file result m') (other : Path) :
    m'.classOf? other = if other.plain = file.plain then none else m.classOf? other := by
  cases h with
  | unknown hfile =>
    split_ifs with hplain
    · rw [← hfile, Metadata.classOf?, Metadata.classOf?, hplain]
    · rfl
  | failed | dropped => exact Table.get?_erase m.files other.plain file.plain

def stored? (t : FileTree) (root : Path) (classname : String) : Option ClassRecord :=
  match ClassRecord.load? t (ClassRecord.storePath root classname) with
  | .ok (some r) => some r
  | _ => none

theorem restore_cases (t : FileTree) (m : Metadata) (c : String) :
    (stored? t m.rootDir c = none ∧ restore t m c = m) ∨
    ∃ r, stored? t m.rootDir c = some r ∧ restore t m c =
      { m with
        files := m.files.insert (Path.mk r.sourceFilename).plain c
        records := m.records.insert c r
        packages := markPackages m.packages c } := by
  unfold restore stored?
  generalize ClassRecord.load? t (ClassRecord.storePath m.rootDir c) = outcome
  rcases outcome with e | _ | r
  · left
    exact ⟨rfl, rfl⟩
  · left
    exact ⟨rfl, rfl⟩
  · right
    exact ⟨r, rfl, rfl⟩

/-! ## Operations -/

/-- An operation on the metadata, with the files as it finds them. -/
inductive Operation where
  | edit (e : Edit)
  | addChecks (checks : Table String)
  | load (t : FileTree)

/-- The metadata after an operation; one that fails to load changes nothing. -/
def Operation.run (m : Metadata) : Operation → Metadata
  | edit e => e.run m
  | addChecks checks => m.addEnvironmentChecks checks
  | load t =>
    match m.load t with
    | .ok m' => m'
    | .error _ => m

/-- The metadata after some operations, where there was nothing before. -/
def operated (root : Path) (operations : List Operation) : Metadata :=
  operations.foldl Operation.run { rootDir := root }

theorem load_cases (m : Metadata) (t : FileTree) :
    (Operation.load t).run m = m ∨ ∃ index : Index, (Operation.load t).run m =
      index.classnames.foldl (restore t) (m.addEnvironmentChecks index.environmentChecks) := by
  rw [Operation.run, load]
  rcases t.read m.indexPath with (_ | _ | _ | _ | _) | text
  case error.notFound => exact .inl rfl
  case ok =>
    dsimp only
    cases (Json.parse? text).bind fun j =>
        (Json.decode j : Except Json.DecodeError Index).toOption with
    | none => exact .inl rfl
    | some index => exact .inr ⟨index, rfl⟩
  all_goals exact .inl rfl

def Edit.Fills (m : Metadata) : Edit → Prop
  | removeFile t file => (m.removeFile file t).1.isOk = true
  | _ => True

def Operation.Fills (m : Metadata) : Operation → Prop
  | edit e => e.Fills m
  | addChecks _ => True
  | load _ => False

/-- Metadata that is filled from sources, where there was nothing before. -/
inductive Filled : Metadata → Prop where
  | empty (root : Path) : Filled { rootDir := root }
  | run {m : Metadata} {op : Operation} : Filled m → op.Fills m → Filled (op.run m)

/-! ## What all operations keep -/

structure KeptByFilling (P : Metadata → Prop) : Prop where
  stage : ∀ {m file time x}, Genuine (file, time, x) → P m → P (m.stage file time x)
  drop : ∀ {m file c m'}, m.Removal file (.ok c) m' → P m → P m'
  renew : ∀ {m m'}, m.Renewed m' → P m → P m'

structure KeptByEdits (P : Metadata → Prop) : Prop extends KeptByFilling P where
  fail : ∀ {m file e m'}, m.Removal file (.error e) m' → P m → P m'

structure Kept (P : Metadata → Prop) : Prop extends KeptByEdits P where
  restore : ∀ {m} t c, P m → P (restore t m c)

variable {P : Metadata → Prop}

theorem KeptByFilling.stageAll (hP : KeptByFilling P) {found : List Reading}
    (hfound : ∀ reading ∈ found, Genuine reading) (hm : P m) : P (m.stageAll found) := by
  induction found generalizing m with
  | nil => exact hm
  | cons reading rest ih =>
    obtain ⟨file, time, x⟩ := reading
    obtain ⟨hfirst, hrest⟩ := List.forall_mem_cons.1 hfound
    exact ih hrest (hP.stage hfirst hm)

theorem KeptByFilling.run (hP : KeptByFilling P) {e : Edit} (he : e.Fills m) (hm : P m) :
    P (e.run m) := by
  cases hadds : e.adds with
  | true =>
    rw [Edit.run_eq_stageAll hadds]
    exact hP.stageAll (fun _ => genuine_found) hm
  | false =>
    cases e with
    | removeFile t file =>
      have hremoval := removal_removeFile m file t
      cases hresult : (m.removeFile file t).1 with
      | error cause =>
        rw [Edit.Fills, hresult] at he
        cases he
      | ok c =>
        rw [hresult] at hremoval
        exact hP.drop hremoval hm
    | markDirty c => exact hP.renew (renewed_markDirty m c) hm
    | reconcile t => exact hP.renew (renewed_reconcile m t) hm
    | _ => cases hadds

theorem KeptByFilling.filled (hP : KeptByFilling P) (hempty : ∀ root, P { rootDir := root })
    (h : m.Filled) : P m := by
  induction h with
  | empty root => exact hempty root
  | @run m op _ hop hm =>
    cases op with
    | edit e => exact hP.run hop hm
    | addChecks checks => exact hP.renew (renewed_addEnvironmentChecks m checks) hm
    | load t => cases hop

theorem KeptByEdits.run (hP : KeptByEdits P) (e : Edit) (hm : P m) : P (e.run m) := by
  cases e with
  | removeFile t file =>
    have hremoval := removal_removeFile m file t
    rw [Edit.run]
    cases hresult : (m.removeFile file t).1 with
    | error cause =>
      rw [hresult] at hremoval
      exact hP.fail hremoval hm
    | ok c =>
      rw [hresult] at hremoval
      exact hP.drop hremoval hm
  | _ => exact hP.toKeptByFilling.run trivial hm

theorem Kept.foldl_restore (hP : Kept P) (t : FileTree) (l : List String) (hm : P m) :
    P (l.foldl (Metadata.restore t) m) := by
  induction l generalizing m with
  | nil => exact hm
  | cons c rest ih =>
    rw [List.foldl_cons]
    exact ih (hP.restore t c hm)

theorem Kept.run (hP : Kept P) (op : Operation) (hm : P m) : P (op.run m) := by
  cases op with
  | edit e => exact hP.toKeptByEdits.run e hm
  | addChecks checks => exact hP.renew (renewed_addEnvironmentChecks m checks) hm
  | load t =>
    rcases load_cases m t with h | ⟨index, h⟩
    · rwa [h]
    · rw [h]
      exact hP.foldl_restore t _ (hP.renew (renewed_addEnvironmentChecks m _) hm)

theorem Kept.operations (hP : Kept P) (operations : List Operation) (hm : P m) :
    P (operations.foldl Operation.run m) := by
  induction operations generalizing m with
  | nil => exact hm
  | cons op rest ih =>
    rw [List.foldl_cons]
    exact ih (hP.run op hm)

end Metadata

end ClassForge
