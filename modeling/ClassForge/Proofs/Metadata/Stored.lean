import ClassForge.Metadata.Basic
import ClassForge.Proofs.Files.Steps
import ClassForge.Proofs.Files.Writes

/-!
# Stored metadata

Saving what the files hold already writes nothing. After texts were written in different places, the
files hold all of them.
-/

namespace ClassForge

variable {t t' : FileTree}

theorem run_writeIfChanged {file : Path} {text : String} (h : t.read file = .ok text) :
    (writeIfChanged file text).run t = (.ok (), t) := by
  have hread : (t.read file).toOption = some text := by rw [h]; rfl
  have hget : (get : FileM StoreError FileTree).run t = (.ok t, t) := rfl
  rw [writeIfChanged, run_bind_of_ok hget, if_pos hread]
  rfl

theorem of_run_writeIfChanged {file : Path} {text : String} {u : Unit}
    (h : (writeIfChanged file text).run t = (.ok u, t')) :
    t'.read file = .ok text ∧ t.Grown t' [file.trail] := by
  have hget : (get : FileM StoreError FileTree).run t = (.ok t, t) := rfl
  rw [writeIfChanged, run_bind_of_ok hget] at h
  split at h
  · next hsame =>
    cases h
    refine ⟨?_, (FileTree.Grown.refl t).mono (by simp)⟩
    cases hread : t.read file with
    | error e =>
      rw [hread] at hsame
      cases hsame
    | ok text' =>
      rw [hread] at hsame
      exact congrArg Except.ok (Option.some.inj hsame)
  · obtain ⟨t₁, hgrown, hwrite⟩ : ∃ t₁, t.Grown t₁ [] ∧ t₁.write file text = .ok t' := by
      dsimp only at h
      split at h
      · obtain ⟨_, t₁, hcreate, hwrite⟩ := exists_of_run_bind_ok h
        exact ⟨t₁, FileTree.grown_createDirectories (FileM.change_of_run_changing hcreate),
          FileM.change_of_run_changing hwrite⟩
      · exact ⟨t, .refl t, FileM.change_of_run_changing h⟩
    exact ⟨FileTree.read_writeAt hwrite, hgrown.trans (FileTree.grown_writeAt hwrite)⟩

theorem of_run_forM_writeIfChanged {α : Type} {l : List α} {place : α → Path} {text : α → String}
    {u : PUnit}
    (hapart : l.Pairwise fun a b =>
      FileTree.keyOf (place a).trail ≠ FileTree.keyOf (place b).trail)
    (h : (l.forM fun a => writeIfChanged (place a) (text a)).run t = (.ok u, t')) :
    (∀ a ∈ l, t'.read (place a) = .ok (text a)) ∧ t.Grown t' (l.map fun a => (place a).trail) := by
  induction l generalizing t with
  | nil =>
    cases h
    exact ⟨by simp, .refl _⟩
  | cons a rest ih =>
    obtain ⟨hfirst, hrest⟩ := List.pairwise_cons.1 hapart
    obtain ⟨_, t₁, hwrite, hmore⟩ := exists_of_run_bind_ok h
    obtain ⟨hread, hgrown⟩ := of_run_writeIfChanged hwrite
    obtain ⟨hreads, hgrown'⟩ := ih hrest hmore
    refine ⟨List.forall_mem_cons.2 ⟨hgrown'.read ?_ hread, hreads⟩, hgrown.trans hgrown'⟩
    rintro trail htrail
    obtain ⟨b, hb, rfl⟩ := List.mem_map.1 htrail
    exact hfirst b hb

namespace Metadata

variable {m : Metadata}

/-- The files hold what saving the metadata would write. -/
structure Stored (m : Metadata) (t : FileTree) : Prop where
  records : ∀ e ∈ m.records.entries,
    t.read (ClassRecord.storePath m.rootDir e.1) = .ok (Json.encode e.2).pretty
  index : t.read m.indexPath = .ok (Json.encode
    ({ classnames := m.classnames, environmentChecks := m.environmentChecks } : Index)).pretty

theorem Stored.run_save (h : m.Stored t) : m.save.run t = (.ok (), t) := by
  have hrecords := run_forM_of_ok fun e he => run_writeIfChanged (h.records e he)
  rw [save]
  exact (run_bind_of_ok hrecords).trans (run_writeIfChanged h.index)

end Metadata

end ClassForge
