import ClassForge.Proofs.Metadata.Pass

/-!
# Histories of the metadata

The operations that change the metadata, each with the files as it finds them. Adding files is the
same as putting what is read of them in place one after another.
-/

namespace ClassForge.Metadata

variable {m : Metadata}

/-! ## Reading -/

abbrev Reading := Path × UInt64 × ClassRecord.Extraction

def read? (m : Metadata) (t : FileTree) (classname : Option String) (file : Path) (force : Bool) :
    Option Reading :=
  match t.modified file with
  | .error _ => none
  | .ok time =>
    if !force && !m.isStale classname file time then none
    else match ClassRecord.ofFile t file classname with
      | .error _ => none
      | .ok x => some (file, time, x)

def stageAll (m : Metadata) (found : List Reading) : Metadata :=
  found.foldl (fun m (file, time, x) => m.stage file time x) m

/-- The metadata after an operation that may fail; one that fails changes nothing. -/
def kept (m : Metadata) : Except StoreError (Bool × Metadata) → Metadata
  | .ok (_, m') => m'
  | .error _ => m

theorem kept_addClassFile (m : Metadata) (t : FileTree) (classname : Option String) (file : Path)
    (force : Bool) :
    m.kept (m.addClassFile t classname file force) =
      m.stageAll (m.read? t classname file force).toList := by
  rw [addClassFile, read?]
  rcases t.modified file with e | time
  · rfl
  · simp only [Except.mapError, bind, Except.bind]
    by_cases hs : (!force && !m.isStale classname file time) = true
    · rw [if_pos hs, if_pos hs]
      rfl
    · rw [if_neg hs, if_neg hs]
      rcases ClassRecord.ofFile t file classname with e | x <;> rfl

/-- A file in a batch is read as one that should define the class given, or else the class it
defined before. -/
theorem pending?_eq_read? (m : Metadata) (t : FileTree) (force : Bool) (classname : Option String)
    (file : Path) :
    m.pending? t force (classname, file) =
      m.read? t (classname.or (m.classOf? file)) file force := by
  rw [pending?, read?]
  rcases t.modified file with e | time
  · rfl
  · simp only [Except.toOption, bind, Option.bind]
    split
    · rfl
    · rcases ClassRecord.ofFile t file (classname.or (m.classOf? file)) with e | x <;> rfl

/-! ## Operations -/

/-- An operation on the metadata, with the files as it finds them. -/
inductive Edit where
  | addFile (t : FileTree) (file : Path) (force : Bool)
  | addClassFile (t : FileTree) (classname : Option String) (file : Path) (force : Bool)
  | addFiles (t : FileTree) (entries : List (Option String × Path)) (force : Bool)
  | removeFile (t : FileTree) (file : Path)
  | markDirty (classname : String)
  | reconcile (t : FileTree)

namespace Edit

def run (m : Metadata) : Edit → Metadata
  | addFile t file force => m.kept (m.addFile t file force)
  | addClassFile t classname file force => m.kept (m.addClassFile t classname file force)
  | addFiles t entries force => (m.addFiles t entries force).2
  | removeFile t file => (m.removeFile file t).2.1
  | markDirty classname => m.markDirty classname
  | reconcile t => (m.reconcile t).2.1

def found (m : Metadata) : Edit → List Reading
  | addFile t file force => (m.read? t (m.classOf? file) file force).toList
  | addClassFile t classname file force => (m.read? t classname file force).toList
  | addFiles t entries force => entries.filterMap (m.pending? t force)
  | _ => []

/-- Whether an operation adds files. -/
def adds : Edit → Bool
  | addFile .. | addClassFile .. | addFiles .. => true
  | _ => false

theorem run_eq_stageAll {e : Edit} (h : e.adds = true) : e.run m = m.stageAll (e.found m) := by
  cases e with
  | addFile t file force => exact kept_addClassFile m t (m.classOf? file) file force
  | addClassFile t classname file force => exact kept_addClassFile m t classname file force
  | addFiles t entries force => rfl
  | _ => cases h

end Edit

def Genuine (reading : Reading) : Prop :=
  ∃ t expected, ClassRecord.ofFile t reading.1 expected = .ok reading.2.2

theorem genuine_read? {t : FileTree} {classname : Option String} {file : Path} {force : Bool}
    {reading : Reading} (h : m.read? t classname file force = some reading) : Genuine reading := by
  rw [read?] at h
  split at h
  · cases h
  · split at h
    · cases h
    · split at h
      · cases h
      · next hfile =>
        cases h
        exact ⟨t, classname, hfile⟩

theorem genuine_found {e : Edit} {reading : Reading} (h : reading ∈ e.found m) :
    Genuine reading := by
  cases e with
  | addFile t file force => exact genuine_read? (Option.mem_toList.1 h)
  | addClassFile t classname file force => exact genuine_read? (Option.mem_toList.1 h)
  | addFiles t entries force =>
    obtain ⟨⟨classname, file⟩, -, hentry⟩ := List.mem_filterMap.1 h
    rw [pending?_eq_read?] at hentry
    exact genuine_read? hentry
  | _ => cases h

def runAll (m : Metadata) (edits : List Edit) : Metadata := edits.foldl Edit.run m

/-- Of the files that are put in place, each is new or declares the class it is registered under. -/
def KeepsNames (m : Metadata) : List Reading → Prop
  | [] => True
  | (file, time, x) :: rest =>
    (∀ c ∈ m.classOf? file, x.record.classname = c) ∧ (m.stage file time x).KeepsNames rest

instance decidableKeepsNames (m : Metadata) :
    (found : List Reading) → Decidable (m.KeepsNames found)
  | [] => isTrue trivial
  | (file, time, x) :: rest =>
    have := decidableKeepsNames (m.stage file time x) rest
    inferInstanceAs (Decidable ((∀ c ∈ m.classOf? file, x.record.classname = c) ∧ _))

/-- Adding a file again never changes the class that it declares, in any of some operations. -/
def HistoryKeepsNames (m : Metadata) : List Edit → Prop
  | [] => True
  | e :: rest => m.KeepsNames (e.found m) ∧ (e.run m).HistoryKeepsNames rest

instance decidableHistoryKeepsNames (m : Metadata) :
    (edits : List Edit) → Decidable (m.HistoryKeepsNames edits)
  | [] => isTrue trivial
  | e :: rest =>
    have := decidableHistoryKeepsNames (e.run m) rest
    inferInstanceAs (Decidable (m.KeepsNames (e.found m) ∧ _))

/-! ## Single steps -/

def staged (file : Path) (time : UInt64) (x : ClassRecord.Extraction) : ClassRecord :=
  { x.record with lastModified := time, sourceFilename := file.text }

/-- A class that is put in place, if it is new or was that of the file, leaves all others alone;
else the former class of the file is dropped. -/
theorem stage_cases (m : Metadata) (file : Path) (time : UInt64) (x : ClassRecord.Extraction) :
    ((m.classOf? file = none ∨ m.classOf? file = some x.record.classname) ∧
      (m.stage file time x).records = m.records.insert x.record.classname (staged file time x) ∧
      (m.stage file time x).dirty = m.dirty.add x.record.classname) ∨
    ∃ p, m.classOf? file = some p ∧ p ≠ x.record.classname ∧
      (m.stage file time x).records =
        (m.records.erase p).insert x.record.classname (staged file time x) ∧
      (m.stage file time x).dirty = NameSet.add (m.dirty.erase p) x.record.classname := by
  rw [stage]
  rcases m.classOf? file with _ | p
  · exact .inl ⟨.inl rfl, rfl, rfl⟩
  · by_cases hp : p = x.record.classname
    · dsimp only
      rw [if_pos hp]
      exact .inl ⟨.inr (congrArg some hp), rfl, rfl⟩
    · dsimp only
      rw [if_neg hp]
      exact .inr ⟨p, rfl, hp, rfl, rfl⟩

/-- Removing a file fails and at most unregisters the file, or drops its class and makes the classes
that point at it dirty. -/
theorem removeFile_cases (m : Metadata) (file : Path) (t : FileTree) :
    ((m.removeFile file t).2.1.records = m.records ∧ (m.removeFile file t).2.1.dirty = m.dirty) ∨
    ∃ c, (m.removeFile file t).2.1.records = m.records.erase c ∧
      (m.removeFile file t).2.1.dirty =
        (m.hierarchy.directDerived c).foldl NameSet.add (m.dirty.erase c) := by
  rw [removeFile]
  rcases m.classOf? file with _ | c
  · exact .inl ⟨rfl, rfl⟩
  · dsimp only
    generalize (if m.records.contains c then
      ClassRecord.remove (ClassRecord.storePath m.rootDir c) else pure ()).run t = removal
    rcases removal with ⟨_ | _, t'⟩
    · exact .inl ⟨rfl, rfl⟩
    · exact .inr ⟨c, rfl, rfl⟩

end ClassForge.Metadata
