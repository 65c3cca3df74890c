import ClassForge.Files.Tree

/-!
# Steps that may fail

A step works on a state and gives a value or an error. What is known of a step is what is known of its
parts, one after another.
-/

namespace ClassForge

section

variable {σ ε α β : Type} {x : ExceptT ε (StateM σ) α} {f : α → ExceptT ε (StateM σ) β} {s s' : σ}

theorem run_bind_of_ok {a : α} (h : x.run s = (.ok a, s')) : (x >>= f).run s = (f a).run s' := by
  have hx : x s = (.ok a, s') := h
  simp only [ExceptT.run, bind, ExceptT.bind, ExceptT.mk, StateT.bind, hx]
  rfl

theorem run_bind_of_error {e : ε} (h : x.run s = (.error e, s')) :
    (x >>= f).run s = (.error e, s') := by
  have hx : x s = (.error e, s') := h
  simp only [ExceptT.run, bind, ExceptT.bind, ExceptT.mk, StateT.bind, hx]
  rfl

theorem exists_of_run_bind_ok {b : β} (h : (x >>= f).run s = (.ok b, s')) :
    ∃ a s₁, x.run s = (.ok a, s₁) ∧ (f a).run s₁ = (.ok b, s') := by
  cases hx : x.run s with
  | mk outcome s₁ =>
    cases outcome with
    | error e =>
      rw [run_bind_of_error hx] at h
      cases h
    | ok a => exact ⟨a, s₁, rfl, (run_bind_of_ok hx).symm.trans h⟩

theorem cases_of_run_bind_error {e : ε} (h : (x >>= f).run s = (.error e, s')) :
    x.run s = (.error e, s') ∨ ∃ a s₁, x.run s = (.ok a, s₁) ∧ (f a).run s₁ = (.error e, s') := by
  cases hx : x.run s with
  | mk outcome s₁ =>
    cases outcome with
    | error e' =>
      rw [run_bind_of_error hx] at h
      cases h
      exact .inl rfl
    | ok a => exact .inr ⟨a, s₁, rfl, (run_bind_of_ok hx).symm.trans h⟩

theorem run_forM_of_ok {f : α → ExceptT ε (StateM σ) PUnit} {l : List α}
    (h : ∀ a ∈ l, (f a).run s = (.ok ⟨⟩, s)) : (l.forM f).run s = (.ok ⟨⟩, s) := by
  induction l with
  | nil => rfl
  | cons a rest ih =>
    have hrest := ih fun b hb => h b (List.mem_cons_of_mem _ hb)
    exact (run_bind_of_ok (h a List.mem_cons_self)).trans hrest

end

/-! ## Files -/

namespace FileM

variable {ε α : Type} {t t' : FileTree} {wrap : FileError → ε} {read : FileTree → Except FileError α}

theorem run_reading (read : FileTree → Except FileError α) (wrap : FileError → ε) (t : FileTree) :
    (reading read wrap).run t = ((read t).mapError wrap, t) := by
  have hget : (get : FileM ε FileTree).run t = (.ok t, t) := rfl
  rw [reading, run_bind_of_ok hget]
  cases read t <;> rfl

theorem run_reading_of_ok {a : α} (h : read t = .ok a) :
    (reading read wrap).run t = (.ok a, t) := by
  rw [run_reading, h]
  rfl

theorem run_reading_of_error {e : FileError} (h : read t = .error e) :
    (reading read wrap).run t = (.error (wrap e), t) := by
  rw [run_reading, h]
  rfl

theorem run_changing (change : FileTree → Except FileError FileTree) (wrap : FileError → ε)
    (t : FileTree) : (changing change wrap).run t =
      match change t with
      | .ok t' => (.ok (), t')
      | .error e => (.error (wrap e), t) := by
  have hget : (get : FileM ε FileTree).run t = (.ok t, t) := rfl
  rw [changing, run_bind_of_ok hget]
  cases change t <;> rfl

theorem read_of_run_reading {a : α} (h : (reading read wrap).run t = (.ok a, t')) :
    read t = .ok a ∧ t' = t := by
  rw [run_reading] at h
  cases hread : read t with
  | error e =>
    rw [hread] at h
    cases h
  | ok a' =>
    rw [hread] at h
    cases h
    exact ⟨rfl, rfl⟩

theorem change_of_run_changing {change : FileTree → Except FileError FileTree} {u : Unit}
    (h : (changing change wrap).run t = (.ok u, t')) : change t = .ok t' := by
  rw [run_changing] at h
  cases hchange : change t with
  | error e =>
    rw [hchange] at h
    cases h
  | ok t₁ =>
    rw [hchange] at h
    cases h
    rfl

end FileM

end ClassForge
