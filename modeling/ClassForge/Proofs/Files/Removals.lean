import ClassForge.ClassRecord.Store
import ClassForge.Proofs.Files.Steps
import ClassForge.Proofs.Files.Writes

/-!
# Rows of removals

Removing files one after another never takes a directory away, and nothing is there afterwards that was
not there before. So a stored record can be removed whatever was removed before it.
-/

namespace ClassForge

namespace FileTree

variable {t t' t'' : FileTree} {p q : Path} {text : String} {removed more : List Trail}

theorem modified_of_file {m : UInt64} (hlocate : t.locate p = .ok p.trail)
    (hmeans : meansDirectory p = false) (hnode : t.node? p.trail = some (.file text m)) :
    t.modified p = .ok m := by
  rw [modified, find_file hlocate hmeans hnode]
  rfl

theorem exists_modified_of_read (h : t.read p = .ok text) : ∃ time, t.modified p = .ok time := by
  obtain ⟨hlocate, hmeans, time, hnode⟩ := read_eq_ok_iff.1 h
  exact ⟨time, modified_of_file hlocate hmeans hnode⟩

theorem Grown.modified (h : t.Grown t' removed) (hne : ∀ place ∈ removed, keyOf q.trail ≠ keyOf place)
    (hread : t.read q = .ok text) : t'.modified q = t.modified q := by
  obtain ⟨hlocate, hmeans, time, hnode⟩ := read_eq_ok_iff.1 hread
  rw [modified_of_file hlocate hmeans hnode]
  exact modified_of_file (locate_mono h.directories hlocate) hmeans (h.files _ _ _ hne hnode)

theorem Grown.exists_read (h : t.Grown t' [p.trail]) (hp : t'.read p = .ok text) {former : String}
    (hformer : t.read q = .ok former) : ∃ text', t'.read q = .ok text' := by
  by_cases hkey : keyOf q.trail = keyOf p.trail
  · obtain ⟨hlocate, hmeans, m, hnode⟩ := read_eq_ok_iff.1 hformer
    obtain ⟨-, -, m', hnode'⟩ := read_eq_ok_iff.1 hp
    have hne {t : FileTree} {trail : Trail} {m : UInt64} {text : String}
        (h : t.node? trail = some (.file text m)) : trail ≠ [] := by
      rintro rfl
      cases h
    refine ⟨text, read_eq_ok_iff.2 ⟨locate_mono h.directories hlocate, hmeans, m', ?_⟩⟩
    rw [node?_eq_of_key (hne hnode') (hne hnode) hkey, hnode']
  · exact ⟨former, h.read (by simpa using hkey) hformer⟩

structure Thinned (t t' : FileTree) (removed : List Trail) : Prop extends Grown t t' removed where
  old : ∀ trail n, t'.node? trail = some n → t.node? trail = some n

theorem Thinned.refl (t : FileTree) : t.Thinned t [] := ⟨.refl t, fun _ _ h => h⟩

theorem Thinned.trans (h : t.Thinned t' removed) (h' : t'.Thinned t'' more) :
    t.Thinned t'' (removed ++ more) :=
  ⟨h.toGrown.trans h'.toGrown, fun trail n hn => h.old trail n (h'.old trail n hn)⟩

theorem Thinned.mono (h : t.Thinned t' removed) (hsub : removed ⊆ more) : t.Thinned t' more :=
  ⟨h.toGrown.mono hsub, h.old⟩

def without (t : FileTree) (trail : Trail) : FileTree :=
  { t with nodes := t.nodes.erase (keyOf trail) }

theorem node?_without (t : FileTree) (trail other : Trail) : (t.without trail).node? other =
    if other ≠ [] ∧ keyOf other = keyOf trail then none else t.node? other := by
  cases other with
  | nil => rfl
  | cons s other => simp [node?, without, Table.get?_erase]

theorem thinned_without {trail : Trail} {m : UInt64} (h : t.node? trail = some (.file text m)) :
    t.Thinned (t.without trail) [trail] := by
  have hne : trail ≠ [] := by
    rintro rfl
    cases h
  refine ⟨⟨fun other hother => ?_, fun other text' m' hapart hother => ?_⟩, fun other n hn => ?_⟩
  · rw [node?_without, if_neg, hother]
    rintro ⟨hne', hkey⟩
    rw [node?_eq_of_key hne hne' hkey, h] at hother
    cases hother
  · rw [node?_without, if_neg, hother]
    exact fun hkey => hapart trail List.mem_cons_self hkey.2
  · rw [node?_without] at hn
    split_ifs at hn
    exact hn

theorem removeFile_of_file {m : UInt64} (hlocate : t.locate p = .ok p.trail)
    (hmeans : meansDirectory p = false) (hnode : t.node? p.trail = some (.file text m)) :
    t.removeFile p = .ok (t.without p.trail) := by
  rw [removeFile, find_file hlocate hmeans hnode]
  rfl

theorem removeFile_of_none (hlocate : t.locate p = .ok p.trail) (hnode : t.node? p.trail = none) :
    t.removeFile p = .error .notFound := by
  rw [removeFile, find, hlocate]
  simp only [bind, Except.bind, hnode]
  rfl

end FileTree

theorem ClassRecord.run_remove {t t' : FileTree} {p : Path} {text : String} {removed : List Trail}
    (h : t.Thinned t' removed) (hread : t.read p = .ok text) :
    ∃ t'', (ClassRecord.remove p).run t' = (.ok (), t'') ∧ t'.Thinned t'' [p.trail] := by
  obtain ⟨hlocate, hmeans, m, hnode⟩ := FileTree.read_eq_ok_iff.1 hread
  replace hlocate := FileTree.locate_mono h.directories hlocate
  have hget : (get : FileM StoreError FileTree).run t' = (.ok t', t') := rfl
  rw [remove, run_bind_of_ok hget]
  cases hnow : t'.node? p.trail with
  | none =>
    rw [FileTree.removeFile_of_none hlocate hnow]
    exact ⟨t', rfl, (FileTree.Thinned.refl t').mono (by simp)⟩
  | some n =>
    cases (h.old _ _ hnow).symm.trans hnode
    rw [FileTree.removeFile_of_file hlocate hmeans hnow]
    exact ⟨_, rfl, FileTree.thinned_without hnow⟩

end ClassForge
