import ClassForge.Proofs.Files.Places

/-!
# Rows of writes

Writing files one after another never takes a directory away, and it changes no file but those that are
written. So what is read of a file stays the same until something is written in its place.
-/

namespace ClassForge.FileTree

variable {t t' t'' : FileTree} {p q : Path} {text : String} {time : UInt64} {written more : List Trail}

theorem read_eq_ok_iff : t.read p = .ok text ↔
    t.locate p = .ok p.trail ∧ meansDirectory p = false ∧
      ∃ m, t.node? p.trail = some (.file text m) := by
  constructor
  · intro h
    obtain ⟨m, hnode⟩ := read_eq h
    obtain ⟨⟨trail, n⟩, hfound, -⟩ := exists_of_bind_ok h
    obtain ⟨found, hlocate, hfound⟩ := exists_of_bind_ok hfound
    obtain rfl := locate_eq hlocate
    refine ⟨hlocate, ?_, m, hnode⟩
    rw [hnode] at hfound
    cases hmeans : meansDirectory p with
    | false => rfl
    | true =>
      simp only [hmeans, if_true] at hfound
      cases hfound
  · rintro ⟨hlocate, hmeans, m, hnode⟩
    rw [read, find_file hlocate hmeans hnode]
    rfl

structure Grown (t t' : FileTree) (written : List Trail) : Prop where
  directories : ∀ trail, t.node? trail = some .directory → t'.node? trail = some .directory
  files : ∀ trail text m, (∀ place ∈ written, keyOf trail ≠ keyOf place) →
    t.node? trail = some (.file text m) → t'.node? trail = some (.file text m)

theorem Grown.refl (t : FileTree) : t.Grown t [] := ⟨fun _ h => h, fun _ _ _ _ h => h⟩

theorem Grown.trans (h : t.Grown t' written) (h' : t'.Grown t'' more) :
    t.Grown t'' (written ++ more) := by
  refine ⟨fun trail ht => h'.directories trail (h.directories trail ht), ?_⟩
  intro trail text m hapart ht
  have hfirst := h.files trail text m (fun place hp => hapart place (List.mem_append_left _ hp)) ht
  exact h'.files trail text m (fun place hp => hapart place (List.mem_append_right _ hp)) hfirst

theorem Grown.mono (h : t.Grown t' written) (hsub : written ⊆ more) : t.Grown t' more :=
  ⟨h.directories, fun trail text m hapart => h.files trail text m fun place hp =>
    hapart place (hsub hp)⟩

theorem Grown.read (h : t.Grown t' written) (hne : ∀ place ∈ written, keyOf q.trail ≠ keyOf place)
    (hread : t.read q = .ok text) : t'.read q = .ok text := by
  obtain ⟨hlocate, hmeans, m, hnode⟩ := read_eq_ok_iff.1 hread
  exact read_eq_ok_iff.2 ⟨locate_mono h.directories hlocate, hmeans, m, h.files _ _ _ hne hnode⟩

theorem Grown.read_same (h : t.Grown t' written) {former : String} (hformer : t.read q = .ok former)
    (hp : t'.read p = .ok text) (hsame : q.trail = p.trail) : t'.read q = .ok text := by
  obtain ⟨hlocate, hmeans, -⟩ := read_eq_ok_iff.1 hformer
  obtain ⟨-, -, hnode⟩ := read_eq_ok_iff.1 hp
  exact read_eq_ok_iff.2 ⟨locate_mono h.directories hlocate, hmeans, by rwa [hsame]⟩

theorem grown_createDirectories (h : t.createDirectories p = .ok t') : t.Grown t' [] := by
  refine ⟨?_, fun trail text m _ => (sameFiles_createDirectories h trail text m).2⟩
  obtain ⟨⟨made, last⟩, hmade, h⟩ := exists_of_bind_ok h
  cases h
  refine foldlM_induction
    (P := fun s => ∀ trail, t.node? trail = some .directory → s.1.node? trail = some .directory) ?_
    (fun _ h => h) hmade
  rintro ⟨t₁, trail₁⟩ part ⟨t₂, trail₂⟩ hkept hstep
  obtain ⟨next, hnext, hstep⟩ := exists_of_bind_ok hstep
  split at hstep
  · cases hstep
    exact hkept
  · cases hstep
  · cases hstep
    intro trail htrail
    rw [node?_put]
    split_ifs
    · rfl
    · exact hkept trail htrail

theorem grown_writeAt (h : t.writeAt p text time = .ok t') : t.Grown t' [p.trail] := by
  refine ⟨fun trail => directory_writeAt h, fun trail text' m hne htrail => ?_⟩
  rw [node?_writeAt_of_ne h (hne _ List.mem_cons_self), htrail]

end ClassForge.FileTree
