import ClassForge.Proofs.Files.Removals
import ClassForge.Proofs.Metadata.Operations
import ClassForge.Proofs.Metadata.Stored

/-!
# Loaded metadata

Where metadata is loaded from files, every class has a record that is stored and every file is
registered under a class whose record names it. As long as the records are there, a file is removed
from the metadata without fail.
-/

namespace ClassForge.Metadata

variable {m m' : Metadata} {t t' base : FileTree} {c : String} {removed : List Trail}

/-! ## What loading gives -/

structure Loaded (m : Metadata) (t : FileTree) : Prop where
  stored : ∀ c r, m.record? c = some r → stored? t m.rootDir c = some r
  registered : ∀ q c, m.classOf? q = some c →
    ∃ r, m.record? c = some r ∧ (Path.mk r.sourceFilename).plain = q.plain

theorem Loaded.plain_eq (h : m.Loaded t) {q : Path} {r : ClassRecord} (hq : m.classOf? q = some c)
    (hr : m.record? c = some r) : (Path.mk r.sourceFilename).plain = q.plain := by
  obtain ⟨r', hr', hplain⟩ := h.registered q c hq
  cases hr.symm.trans hr'
  exact hplain

theorem Loaded.restore (h : m.Loaded t) (c : String) : (restore t m c).Loaded t := by
  rcases restore_cases t m c with ⟨-, heq⟩ | ⟨r, hstored, heq⟩
  · rwa [heq]
  · rw [heq]
    constructor
    · intro d r' hr'
      simp only [record?, Table.get?_insert] at hr'
      split_ifs at hr' with hd
      · cases hr'
        rw [hd]
        exact hstored
      · exact h.stored d r' hr'
    · intro q d hq
      simp only [classOf?, Table.get?_insert] at hq
      simp only [record?, Table.get?_insert]
      split_ifs at hq with hplain
      · cases hq
        exact ⟨r, if_pos rfl, hplain.symm⟩
      · obtain ⟨r', hr', hsource⟩ := h.registered q d hq
        by_cases hd : d = c
        · -- the class was taken before, from the same stored record
          subst hd
          cases (h.stored d r' hr').symm.trans hstored
          exact ⟨r, if_pos rfl, hsource⟩
        · exact ⟨r', by rw [if_neg hd]; exact hr', hsource⟩

theorem Loaded.foldl_restore (h : m.Loaded t) (l : List String) :
    (l.foldl (Metadata.restore t) m).Loaded t := by
  induction l generalizing m with
  | nil => exact h
  | cons c rest ih =>
    rw [List.foldl_cons]
    exact ih (h.restore c)

theorem loaded_of_load {root : Path} (h : load { rootDir := root } t = .ok m) : m.Loaded t := by
  have hempty (checks : Table String) :
      Loaded { rootDir := root, environmentChecks := checks } t :=
    ⟨by rintro c r ⟨⟩, by rintro q c ⟨⟩⟩
  have hrun : (Operation.load t).run { rootDir := root } = m := by rw [Operation.run, h]
  rcases load_cases { rootDir := root } t with heq | ⟨index, heq⟩
  · rw [← hrun, heq]
    exact hempty _
  · rw [← hrun, heq]
    exact (hempty _).foldl_restore _

theorem Loaded.addEnvironmentChecks (h : m.Loaded t) (checks : Table String) :
    (m.addEnvironmentChecks checks).Loaded t := ⟨h.stored, h.registered⟩

/-! ## Removing files -/

def Backed (m : Metadata) (t : FileTree) : Prop :=
  ∀ c ∈ m.classnames, ∃ text, t.read (ClassRecord.storePath m.rootDir c) = .ok text

def places (m : Metadata) : List Trail :=
  m.classnames.map fun c => (ClassRecord.storePath m.rootDir c).trail

theorem exists_read_of_stored? {root : Path} {r : ClassRecord} (h : stored? t root c = some r) :
    ∃ text, t.read (ClassRecord.storePath root c) = .ok text := by
  unfold stored? ClassRecord.load? at h
  cases hread : t.read (ClassRecord.storePath root c) with
  | ok text => exact ⟨text, rfl⟩
  | error e =>
    simp only [hread] at h
    cases e <;> cases h

theorem Loaded.backed (h : m.Loaded t) : m.Backed t := by
  intro c hc
  obtain ⟨r, hr⟩ := mem_classnames.1 hc
  exact exists_read_of_stored? (h.stored c r hr)

/-- A file is removed without fail while the records are stored, or were before other removals. -/
theorem Backed.removeFile (h : m.Backed base) (hthin : base.Thinned t removed) (file : Path) :
    ∃ m' t', m.removeFile file t = (.ok (m.classOf? file), m', t') ∧
      base.Thinned t' (removed ++ m.places) := by
  rw [Metadata.removeFile]
  cases hc : m.classOf? file with
  | none => exact ⟨m, t, rfl, hthin.mono (List.subset_append_left _ _)⟩
  | some c =>
    dsimp only
    by_cases hknown : m.records.contains c = true
    · have hmem : c ∈ m.classnames := Table.mem_keys.2 (Table.contains_iff.1 hknown)
      obtain ⟨text, hread⟩ := h c hmem
      obtain ⟨t', hrun, hthin'⟩ := ClassRecord.run_remove hthin hread
      rw [if_pos hknown, hrun]
      have hplace : (ClassRecord.storePath m.rootDir c).trail ∈ m.places :=
        List.mem_map_of_mem hmem
      refine ⟨_, t', rfl, (hthin.trans hthin').mono ?_⟩
      exact List.append_subset.2
        ⟨List.subset_append_left _ _, by simp [hplace]⟩
    · rw [if_neg hknown]
      exact ⟨_, t, rfl, hthin.mono (List.subset_append_left _ _)⟩

/-! ## Saving -/

/-- Writing files one after another leaves a file in every place that is written, and in every place
where there was one. -/
theorem exists_read_of_run_forM {α : Type} {l : List α} {place : α → Path} {text : α → String}
    {u : PUnit} (h : (l.forM fun a => writeIfChanged (place a) (text a)).run t = (.ok u, t')) :
    (∀ q former, t.read q = .ok former → ∃ now, t'.read q = .ok now) ∧
      ∀ a ∈ l, ∃ now, t'.read (place a) = .ok now := by
  induction l generalizing t with
  | nil =>
    cases h
    exact ⟨fun _ former hq => ⟨former, hq⟩, by simp⟩
  | cons a rest ih =>
    obtain ⟨_, t₁, hwrite, hmore⟩ := exists_of_run_bind_ok h
    obtain ⟨hread, hgrown⟩ := of_run_writeIfChanged hwrite
    obtain ⟨hkept, hwritten⟩ := ih hmore
    refine ⟨fun q former hq => ?_, List.forall_mem_cons.2 ⟨hkept _ _ hread, hwritten⟩⟩
    obtain ⟨now, hnow⟩ := hgrown.exists_read hread hq
    exact hkept q now hnow

theorem backed_of_run_save (h : m.save.run t = (.ok (), t')) : m.Backed t' := by
  obtain ⟨_, t₁, hrecords, hindex⟩ := exists_of_run_bind_ok h
  obtain ⟨-, hwritten⟩ := exists_read_of_run_forM hrecords
  obtain ⟨hread, hgrown⟩ := of_run_writeIfChanged hindex
  intro c hc
  obtain ⟨r, hr⟩ := mem_classnames.1 hc
  obtain ⟨former, hformer⟩ := hwritten (c, r) (Table.mem_entries.2 hr)
  exact hgrown.exists_read hread hformer

end ClassForge.Metadata
