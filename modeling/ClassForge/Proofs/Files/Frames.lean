import ClassForge.Files.Output
import ClassForge.Proofs.Files.Steps
import ClassForge.Proofs.Files.Writes

/-!
# What steps leave alone

A step of a build changes files at certain places only, whether it succeeds or fails. A file at another
place is read afterwards as it was read before.
-/

namespace ClassForge

def Touches {ε α : Type} (places : List Trail) (x : FileM ε α) : Prop :=
  ∀ t : FileTree, t.Grown (x.run t).2 places

namespace Touches

variable {ε α β : Type} {places : List Trail} {x : FileM ε α} {f : α → FileM ε β}

theorem of_mem {place : Trail} (h : Touches [place] x) (hplace : place ∈ places) : Touches places x :=
  fun t => (h t).mono (List.cons_subset.2 ⟨hplace, List.nil_subset places⟩)

theorem pure (a : α) : Touches places (pure a : FileM ε α) :=
  fun t => (FileTree.Grown.refl t).mono (List.nil_subset places)

theorem throw (e : ε) : Touches places (throw e : FileM ε α) :=
  fun t => (FileTree.Grown.refl t).mono (List.nil_subset places)

theorem bind (hx : Touches places x) (hf : ∀ a, Touches places (f a)) : Touches places (x >>= f) := by
  intro t
  have hfirst := hx t
  rcases hrun : x.run t with ⟨outcome, t₁⟩
  rw [hrun] at hfirst
  cases outcome with
  | error e => rwa [run_bind_of_error hrun]
  | ok a =>
    rw [run_bind_of_ok hrun]
    exact (hfirst.trans (hf a t₁)).mono (List.append_subset.2 ⟨fun _ h => h, fun _ h => h⟩)

theorem forM {f : α → FileM ε PUnit} {l : List α} (h : ∀ a ∈ l, Touches places (f a)) :
    Touches places (l.forM f) := by
  induction l with
  | nil => exact pure _
  | cons a l ih =>
    exact (h a List.mem_cons_self).bind fun _ => ih fun b hb => h b (List.mem_cons_of_mem _ hb)

theorem mapM {l : List α} (h : ∀ a ∈ l, Touches places (f a)) : Touches places (l.mapM f) := by
  induction l with
  | nil => exact pure _
  | cons a l ih =>
    rw [List.mapM_cons]
    refine (h a List.mem_cons_self).bind fun b => ?_
    exact (ih fun b hb => h b (List.mem_cons_of_mem _ hb)).bind fun _ => pure _

theorem reading (read : FileTree → Except FileError α) (wrap : FileError → ε) :
    Touches places (FileM.reading read wrap) := by
  intro t
  rw [FileM.run_reading]
  exact (FileTree.Grown.refl t).mono (List.nil_subset places)

theorem changing {change : FileTree → Except FileError FileTree}
    (h : ∀ t t', change t = .ok t' → t.Grown t' places) (wrap : FileError → ε) :
    Touches places (FileM.changing change wrap) := by
  intro t
  rw [FileM.run_changing]
  cases hchange : change t with
  | error e => exact (FileTree.Grown.refl t).mono (List.nil_subset places)
  | ok t' => exact h t t' hchange

theorem createDirectories (d : Path) (wrap : FileError → ε) :
    Touches places (FileM.changing (·.createDirectories d) wrap) :=
  changing (fun _ _ h => (FileTree.grown_createDirectories h).mono (List.nil_subset places)) wrap

theorem write (file : Path) (text : String) (wrap : FileError → ε) :
    Touches [file.trail] (FileM.changing (·.write file text) wrap) :=
  changing (fun _ _ h => FileTree.grown_writeAt h) wrap

theorem read (h : Touches places x) {t : FileTree} {q : Path} {text : String}
    (hne : ∀ place ∈ places, FileTree.keyOf q.trail ≠ FileTree.keyOf place)
    (hread : t.read q = .ok text) : (x.run t).2.read q = .ok text :=
  (h t).read hne hread

end Touches

namespace Output

theorem touches_makeRoomFor (file : Path) {places : List Trail} : Touches places (makeRoomFor file) := by
  rw [makeRoomFor]
  split
  · exact .createDirectories _ _
  · exact .pure _

theorem touches_write (file : Path) (text : String) : Touches [file.trail] (write file text) :=
  (touches_makeRoomFor file).bind fun _ => .write file text _

theorem touches_copy (source file : Path) : Touches [file.trail] (copy source file) := by
  refine (touches_makeRoomFor file).bind fun _ => .changing (fun t t' h => ?_) _
  obtain ⟨text, -, hwrite⟩ := exists_of_bind_ok h
  exact FileTree.grown_writeAt hwrite

theorem read_of_run_write {file : Path} {text : String} {t t' : FileTree} {u : Unit}
    (h : (write file text).run t = (.ok u, t')) : t'.read file = .ok text := by
  obtain ⟨_, t₁, -, hwrite⟩ := exists_of_run_bind_ok h
  exact FileTree.read_writeAt (FileM.change_of_run_changing hwrite)

end Output

end ClassForge
