import ClassForge.Proofs.Metadata.Operations
import Mathlib.Data.List.Induction

/-!
# Registered files and their classes

A file is registered under the class it declares. Two files may declare one class, and the class goes
with either of them: it is dropped when one of them is removed or declares another class, though the
other file stays registered under it. Nothing else takes the class of a registered file away.
-/

namespace ClassForge.Metadata

variable {m : Metadata} {c : String} {file other : Path}

/-! ## Updates -/

inductive Update where
  | put (reading : Reading)
  | remove (t : FileTree) (file : Path)
  | markDirty (classname : String)
  | reconcile (t : FileTree)

namespace Update

variable {u : Update}

def run (m : Metadata) : Update → Metadata
  | put (file, time, x) => m.stage file time x
  | remove t file => (m.removeFile file t).2.1
  | markDirty classname => m.markDirty classname
  | reconcile t => (m.reconcile t).2.1

def reads? : Update → Option String
  | put (_, _, x) => some x.record.classname
  | _ => none

def Drops (m : Metadata) (file : Path) (c : String) : Update → Prop
  | put (f, _, x) => f = file ∧ m.classOf? file = some c ∧ x.record.classname ≠ c
  | remove t f => f = file ∧ (m.removeFile file t).1 = .ok (some c)
  | _ => False

theorem mem_classnames_of_reads (h : u.reads? = some c) : c ∈ (u.run m).classnames := by
  cases u with
  | put reading =>
    obtain ⟨file, time, x⟩ := reading
    exact (mem_classnames_stage m file time x).2 (.inl (Option.some.inj h).symm)
  | _ => cases h

theorem not_mem_classnames_run (hc : c ∉ m.classnames) (h : u.reads? ≠ some c) :
    c ∉ (u.run m).classnames := by
  cases u with
  | put reading =>
    obtain ⟨file, time, x⟩ := reading
    rw [run, mem_classnames_stage]
    rintro (heq | ⟨hmem, -⟩)
    · exact h (congrArg some heq.symm)
    · exact hc hmem
  | remove t file =>
    rw [run, (removal_removeFile m file t).mem_classnames]
    exact fun h => hc h.1
  | markDirty classname =>
    rw [run, (renewed_markDirty m classname).mem_classnames]
    exact hc
  | reconcile t =>
    rw [run, (renewed_reconcile m t).mem_classnames]
    exact hc

theorem classOf?_of_run (h : (u.run m).classOf? file = some c) :
    m.classOf? file = some c ∨ u.reads? = some c := by
  cases u with
  | put reading =>
    obtain ⟨f, time, x⟩ := reading
    rw [run, classOf?_stage] at h
    split at h
    · exact .inr h
    · exact .inl h
  | remove t f =>
    rw [run, (removal_removeFile m f t).classOf?] at h
    split at h
    · cases h
    · exact .inl h
  | markDirty classname =>
    rw [classOf?, run, (renewed_markDirty m classname).files] at h
    exact .inl h
  | reconcile t =>
    rw [classOf?, run, (renewed_reconcile m t).files] at h
    exact .inl h

theorem exists_drops (hc : c ∈ m.classnames) (h : c ∉ (u.run m).classnames) :
    ∃ other, u.Drops m other c := by
  cases u with
  | put reading =>
    obtain ⟨file, time, x⟩ := reading
    rw [run, mem_classnames_stage, not_or, not_and, not_not] at h
    exact ⟨file, rfl, h.2 hc, fun heq => h.1 heq.symm⟩
  | remove t file =>
    rw [run, (removal_removeFile m file t).mem_classnames, not_and, not_not] at h
    exact ⟨file, rfl, h hc⟩
  | markDirty classname =>
    rw [run, (renewed_markDirty m classname).mem_classnames] at h
    exact absurd hc h
  | reconcile t =>
    rw [run, (renewed_reconcile m t).mem_classnames] at h
    exact absurd hc h

theorem Drops.gone (h : u.Drops m other c) :
    c ∉ (u.run m).classnames ∧ (u.run m).classOf? other ≠ some c := by
  cases u with
  | put reading =>
    obtain ⟨f, time, x⟩ := reading
    obtain ⟨rfl, hfile, hne⟩ := h
    rw [run, mem_classnames_stage, classOf?_stage, if_pos rfl]
    refine ⟨?_, fun heq => hne (Option.some.inj heq)⟩
    rintro (heq | ⟨-, hother⟩)
    · exact hne heq.symm
    · exact hother hfile
  | remove t f =>
    obtain ⟨rfl, hresult⟩ := h
    rw [run, (removal_removeFile m f t).mem_classnames, (removal_removeFile m f t).classOf?,
      if_pos rfl]
    exact ⟨fun hmem => hmem.2 hresult, (Option.some_ne_none c).symm⟩
  | _ => cases h

end Update

/-! ## Rows of updates -/

def Edit.updates (m : Metadata) : Edit → List Update
  | removeFile t file => [.remove t file]
  | markDirty classname => [.markDirty classname]
  | reconcile t => [.reconcile t]
  | e => (e.found m).map .put

def updatesOf (m : Metadata) : List Edit → List Update
  | [] => []
  | e :: rest => e.updates m ++ (e.run m).updatesOf rest

def updated (m : Metadata) (updates : List Update) : Metadata := updates.foldl Update.run m

theorem updated_append (m : Metadata) (first second : List Update) :
    m.updated (first ++ second) = (m.updated first).updated second := List.foldl_append

theorem Edit.run_eq_updated (m : Metadata) (e : Edit) : e.run m = m.updated (e.updates m) := by
  have hadds (found : List Reading) : m.stageAll found = m.updated (found.map .put) := by
    rw [stageAll, updated, List.foldl_map]
    rfl
  cases e with
  | removeFile | markDirty | reconcile => rfl
  | addFile | addClassFile | addFiles => exact (Edit.run_eq_stageAll rfl).trans (hadds _)

theorem runAll_eq_updated (m : Metadata) (edits : List Edit) :
    m.runAll edits = m.updated (m.updatesOf edits) := by
  induction edits generalizing m with
  | nil => rfl
  | cons e rest ih =>
    rw [updatesOf, updated_append, ← Edit.run_eq_updated, ← ih]
    rfl

theorem not_mem_classnames_updated {updates : List Update} (hc : c ∉ m.classnames)
    (h : ∀ u ∈ updates, u.reads? ≠ some c) : c ∉ (m.updated updates).classnames := by
  induction updates generalizing m with
  | nil => exact hc
  | cons u rest ih =>
    obtain ⟨hu, hrest⟩ := List.forall_mem_cons.1 h
    exact ih (Update.not_mem_classnames_run hc hu) hrest

/-! ## Lost classes -/

/-- The class of a file has been dropped through another file while both were registered under it, and
has not been read since. -/
def Lost (m : Metadata) (updates : List Update) (file : Path) (c : String) : Prop :=
  ∃ (before : List Update) (u : Update) (after : List Update) (other : Path),
    updates = before ++ u :: after ∧
    (m.updated before).classOf? file = some c ∧ u.Drops (m.updated before) other c ∧
    other.plain ≠ file.plain ∧ ∀ v ∈ after, v.reads? ≠ some c

theorem Lost.not_mem_classnames {updates : List Update} (h : m.Lost updates file c) :
    c ∉ (m.updated updates).classnames := by
  obtain ⟨before, u, after, other, rfl, -, hdrops, -, hreads⟩ := h
  rw [updated_append, updated, List.foldl_cons]
  exact not_mem_classnames_updated hdrops.gone.1 hreads

theorem lost_of_not_mem_classnames (hm : ∀ file c, m.classOf? file = some c → c ∈ m.classnames)
    {updates : List Update} (hfile : (m.updated updates).classOf? file = some c)
    (hc : c ∉ (m.updated updates).classnames) : m.Lost updates file c := by
  induction updates using List.reverseRecOn with
  | nil => exact absurd (hm file c hfile) hc
  | append_singleton updates u ih =>
    rw [updated_append] at hfile hc
    have hreads : u.reads? ≠ some c := fun h => hc (Update.mem_classnames_of_reads h)
    have hbefore := (Update.classOf?_of_run hfile).resolve_right hreads
    by_cases hthere : c ∈ (m.updated updates).classnames
    · -- the last update drops it, and not through this file
      obtain ⟨other, hdrops⟩ := Update.exists_drops hthere hc
      refine ⟨updates, u, [], other, rfl, hbefore, hdrops, fun heq => ?_, by simp⟩
      refine hdrops.gone.2 ?_
      rw [classOf?, heq]
      exact hfile
    · obtain ⟨before, v, after, other, rfl, hrest⟩ := ih hbefore hthere
      obtain ⟨hv, hdrops, hne, hafter⟩ := hrest
      refine ⟨before, v, after ++ [u], other, by simp, hv, hdrops, hne, fun w hw => ?_⟩
      rcases List.mem_append.1 hw with hw | hw
      · exact hafter w hw
      · rw [List.mem_singleton.1 hw]
        exact hreads

/-- After any edits, the class that a file is registered under is missing exactly if it is lost: it was
dropped through another file that declared it too, and has not been read since. -/
theorem registered_class_missing_iff (root : Path) (edits : List Edit)
    (hfile : (runAll { rootDir := root } edits).classOf? file = some c) :
    c ∉ (runAll { rootDir := root } edits).classnames ↔
      Lost { rootDir := root } (updatesOf { rootDir := root } edits) file c := by
  rw [runAll_eq_updated] at hfile ⊢
  constructor
  · refine lost_of_not_mem_classnames (fun file c h => ?_) hfile
    cases h
  · exact Lost.not_mem_classnames

def twinFiles : FileTree :=
  { nodes := Table.ofList [("/A.js", .file "qx.Class.define(\"a.A\",\x7b\x7d);" 1),
      ("/B.js", .file "qx.Class.define(\"a.A\",\x7b\x7d);" 1)] }

def twinRemoved : List Edit :=
  [.addFiles twinFiles [(none, ⟨"/A.js"⟩), (none, ⟨"/B.js"⟩)] false,
    .removeFile twinFiles ⟨"/A.js"⟩]

theorem registered_class_missing_iff_reread :
    (runAll { rootDir := ⟨"/"⟩ } (twinRemoved ++ [.addFile twinFiles ⟨"/B.js"⟩ false])).classOf?
      ⟨"/B.js"⟩ = some "a.A" ∧
    ¬ Lost { rootDir := ⟨"/"⟩ } (updatesOf { rootDir := ⟨"/"⟩ }
      (twinRemoved ++ [.addFile twinFiles ⟨"/B.js"⟩ false])) ⟨"/B.js"⟩ "a.A" := by
  obtain ⟨hfile, hthere⟩ :
      (runAll { rootDir := ⟨"/"⟩ } (twinRemoved ++ [Edit.addFile twinFiles ⟨"/B.js"⟩ false])).classOf?
        ⟨"/B.js"⟩ = some "a.A" ∧
      "a.A" ∈ (runAll { rootDir := ⟨"/"⟩ }
        (twinRemoved ++ [Edit.addFile twinFiles ⟨"/B.js"⟩ false])).classnames := by
    decide +kernel
  refine ⟨hfile, fun hlost => ?_⟩
  exact (registered_class_missing_iff _ _ hfile).2 hlost hthere

theorem registered_class_missing_removed :
    (runAll { rootDir := ⟨"/"⟩ } twinRemoved).classOf? ⟨"/B.js"⟩ = some "a.A" ∧
    "a.A" ∉ (runAll { rootDir := ⟨"/"⟩ } twinRemoved).classnames := by
  decide +kernel

end ClassForge.Metadata
