import ClassForge.Proofs.Metadata.History

/-!
# Classes that lose what they point at

A class goes when its file is removed, or when its file is read again and defines another class.
Removing a file makes every class dirty that points at the one that goes. Reading a file again marks
only what is read, so that a class may go on with what it has from a class that is gone.
-/

namespace ClassForge.Metadata

variable {m : Metadata} {e : Edit} {a h : String}

/-- A class has another one as its superclass, a mixin or an interface. -/
def PointsAt (m : Metadata) (h a : String) : Prop :=
  ∃ r, m.record? h = some r ∧ r.classname = h ∧ a ∈ r.hierarchyRefs

instance (m : Metadata) (h a : String) : Decidable (m.PointsAt h a) :=
  decidable_of_iff
    ((m.record? h).any fun r => decide (r.classname = h ∧ a ∈ r.hierarchyRefs)) (by
      simp [PointsAt, Option.any_eq_true])

theorem PointsAt.mem_directDerived (hp : m.PointsAt h a) : h ∈ m.hierarchy.directDerived a := by
  obtain ⟨r, hr, hname, ha⟩ := hp
  refine Hierarchy.mem_directDerived_build.2 ⟨r, Table.mem_values.2 ⟨h, hr⟩, hname, ?_⟩
  simpa [ClassRecord.hierarchyRefs, HierarchyNode.mem_targets, HierarchyNode.ofRecord, or_assoc] using ha

namespace Edit

/-- Whether an operation removes a file. -/
def removes : Edit → Bool
  | removeFile .. => true
  | _ => false

def readNames (m : Metadata) (e : Edit) : List String := (e.found m).map (·.2.2.record.classname)

end Edit

/-! ## Reading files -/

theorem mem_dirty_stage (m : Metadata) (file : Path) (time : UInt64) (x : ClassRecord.Extraction)
    (h : String) :
    (h ∈ (m.stage file time x).dirty.toNames ↔ h = x.record.classname ∨ h ∈ m.dirty.toNames) ∨
    h ≠ x.record.classname ∧ (m.stage file time x).record? h = none := by
  rcases stage_cases m file time x with ⟨-, -, hdirty⟩ | ⟨p, -, hp, hrec, hdirty⟩
  · left
    rw [hdirty, NameSet.mem_add]
  · by_cases hh : h = p
    · subst hh
      right
      refine ⟨hp, ?_⟩
      rw [record?, hrec, Table.get?_insert_of_ne hp, Table.get?_erase, if_pos rfl]
    · left
      rw [hdirty, NameSet.mem_add, NameSet.mem_erase]
      simp [hh]

theorem record?_stage_of_none (hnone : m.record? h = none) (file : Path) (time : UInt64)
    {x : ClassRecord.Extraction} (hne : h ≠ x.record.classname) :
    (m.stage file time x).record? h = none := by
  rw [record?] at hnone ⊢
  rcases stage_cases m file time x with ⟨-, hrec, -⟩ | ⟨p, -, -, hrec, -⟩
  · rw [hrec, Table.get?_insert_of_ne hne, hnone]
  · rw [hrec, Table.get?_insert_of_ne hne, Table.get?_erase, hnone, ite_self]

theorem read_of_contains_stageAll (hnone : m.record? h = none) {found : List Reading}
    (hstill : (m.stageAll found).records.contains h = true) :
    h ∈ found.map (·.2.2.record.classname) := by
  induction found generalizing m with
  | nil =>
    rw [stageAll, List.foldl_nil, Table.contains, ← record?, hnone] at hstill
    cases hstill
  | cons reading rest ih =>
    obtain ⟨file, time, x⟩ := reading
    rw [List.map_cons, List.mem_cons]
    by_cases hne : h = x.record.classname
    · exact .inl hne
    · exact .inr (ih (record?_stage_of_none hnone file time hne) hstill)

theorem mem_dirty_stageAll {found : List Reading}
    (hstill : (m.stageAll found).records.contains h = true) :
    h ∈ (m.stageAll found).dirty.toNames ↔
      h ∈ found.map (·.2.2.record.classname) ∨ h ∈ m.dirty.toNames := by
  induction found generalizing m with
  | nil => simp [stageAll]
  | cons reading rest ih =>
    obtain ⟨file, time, x⟩ := reading
    have hrest := ih (m := m.stage file time x) hstill
    rw [stageAll, List.foldl_cons, ← stageAll, hrest, List.map_cons, List.mem_cons]
    rcases mem_dirty_stage m file time x h with hdirty | ⟨-, hnone⟩
    · rw [hdirty]
      tauto
    · -- the class was dropped and is there in the end, so it is read later on
      have hread := read_of_contains_stageAll hnone hstill
      simp [hread]

/-! ## Other operations -/

theorem contains_reconcile (m : Metadata) (t : FileTree) (a : String) :
    (m.reconcile t).2.1.records.contains a = m.records.contains a := by
  refine kept_reconcile (P := fun m' => m'.records.contains a = m.records.contains a)
    (fun m' g c r hr h => ?_) (fun _ h => h) rfl t
  rw [← h]
  by_cases ha : a = c
  · subst ha
    rw [record?] at hr
    simp [Table.contains, Table.get?_insert_self, hr]
  · simp [Table.contains, Table.get?_insert_of_ne ha]

theorem contains_markDirty (m : Metadata) (c a : String) :
    (m.markDirty c).records.contains a = m.records.contains a := by
  rw [markDirty]
  split <;> rfl

theorem mem_dirty_removeFile {file : Path} {t : FileTree} (hthere : m.records.contains a = true)
    (hgone : (m.removeFile file t).2.1.records.contains a = false)
    (hheir : m.PointsAt h a ∨ (m.removeFile file t).2.1.PointsAt h a) :
    h ∈ (m.removeFile file t).2.1.dirty.toNames := by
  rcases removeFile_cases m file t with ⟨hrec, -⟩ | ⟨c, hrec, hdirty⟩
  · rw [hrec, hthere] at hgone
    cases hgone
  · generalize (m.removeFile file t).2.1 = m' at *
    have hrecord (x : String) : m'.record? x = if x = c then none else m.record? x := by
      rw [record?, hrec, Table.get?_erase]
      rfl
    obtain rfl : a = c := by
      rw [Table.contains, ← record?, hrecord] at hgone
      split at hgone
      · assumption
      · rw [record?, ← Table.contains, hthere] at hgone
        cases hgone
    have hpoints : m.PointsAt h a := by
      refine hheir.elim id ?_
      rintro ⟨r, hr, hname, ha⟩
      rw [hrecord] at hr
      split at hr
      · cases hr
      · exact ⟨r, hr, hname, ha⟩
    rw [hdirty, NameSet.mem_foldl_add]
    exact .inl hpoints.mem_directDerived

/-! ## When a class goes -/

/-- After an operation with which a class goes, a class that points at it is dirty exactly if the
operation removes a file or reads that class, or it was dirty before. -/
theorem heir_dirty_iff (hthere : m.records.contains a = true)
    (hgone : (e.run m).records.contains a = false)
    (hheir : m.PointsAt h a ∨ (e.run m).PointsAt h a)
    (hstill : (e.run m).records.contains h = true) :
    h ∈ (e.run m).dirty.toNames ↔
      e.removes = true ∨ h ∈ e.readNames m ∨ h ∈ m.dirty.toNames := by
  cases hadds : e.adds with
  | true =>
    have hremoves : e.removes = false := by
      cases e with
      | removeFile => cases hadds
      | _ => rfl
    rw [Edit.run_eq_stageAll hadds] at hstill ⊢
    simp [mem_dirty_stageAll hstill, hremoves, Edit.readNames]
  | false =>
    -- of the other operations only the removal of a file drops a class
    cases e with
    | removeFile t file =>
      have hdirty := mem_dirty_removeFile hthere hgone hheir
      exact iff_of_true hdirty (.inl rfl)
    | markDirty c =>
      rw [Edit.run, contains_markDirty, hthere] at hgone
      cases hgone
    | reconcile t =>
      rw [Edit.run, contains_reconcile, hthere] at hgone
      cases hgone
    | _ => cases hadds

def heirFiles (base : String) (time : UInt64) : FileTree :=
  { nodes := Table.ofList
      [("/A.js", .file ("qx.Class.define(\"" ++ base ++ "\",\x7b\x7d);") time),
        ("/B.js", .file "qx.Class.define(\"b.B\",\x7bextend:a.A\x7d);" 1)] }

def heirAdded : Metadata :=
  runAll { rootDir := ⟨"/"⟩ }
    [.addFiles (heirFiles "a.A" 1) [(none, ⟨"/A.js"⟩), (none, ⟨"/B.js"⟩)] false,
      .reconcile (heirFiles "a.A" 1)]

def fileRemoved : Edit := .removeFile (heirFiles "a.A" 1) ⟨"/A.js"⟩

def classRenamed : Edit := .addFile (heirFiles "c.C" 2) ⟨"/A.js"⟩ false

theorem heir_dirty_iff_removed :
    heirAdded.PointsAt "b.B" "a.A" ∧ "b.B" ∉ heirAdded.dirty.toNames ∧
    "b.B" ∈ (fileRemoved.run heirAdded).dirty.toNames := by
  obtain ⟨⟨hthere, hheir, hclean⟩, hgone, hkept⟩ :
      (heirAdded.records.contains "a.A" = true ∧ heirAdded.PointsAt "b.B" "a.A" ∧
        "b.B" ∉ heirAdded.dirty.toNames) ∧
      (fileRemoved.run heirAdded).records.contains "a.A" = false ∧
      (fileRemoved.run heirAdded).records.contains "b.B" = true := by decide +kernel
  have hdirty := heir_dirty_iff hthere hgone (.inl hheir) hkept
  exact ⟨hheir, hclean, hdirty.2 (.inl rfl)⟩

theorem heir_dirty_iff_renamed :
    heirAdded.records.contains "a.A" = true ∧
    (classRenamed.run heirAdded).records.contains "a.A" = false ∧
    (classRenamed.run heirAdded).PointsAt "b.B" "a.A" ∧
    "b.B" ∉ (classRenamed.run heirAdded).dirty.toNames := by
  decide +kernel

end ClassForge.Metadata
