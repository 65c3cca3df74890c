import ClassForge.Proofs.Hierarchy

/-!
# Climbing the superclasses

Where a class has a name from is found by climbing its superclasses. A climb need not remember where
it has been: as many steps as there are classes are enough, and on a circle more of them find
nothing new.
-/

namespace ClassForge.Hierarchy

variable {g : Hierarchy} {k : Category} {n : String}

def superClass? (g : Hierarchy) (c : String) : Option String := (g.nodes.get? c).bind (·.superClass)

def ownProvenance? (g : Hierarchy) (c : String) (k : Category) (n : String) : Option Provenance :=
  (g.nodes.get? c).bind fun node =>
    if node.declares k n then some (.overriddenFrom c)
    else (node.mixins.find? fun x => g.declares x k n).map .mixin

def climb (g : Hierarchy) (k : Category) (n : String) : Nat → Option String → Option Provenance
  | 0, _ => none
  | _ + 1, none => none
  | steps + 1, some c => (g.ownProvenance? c k n).or (g.climb k n steps (g.superClass? c))

@[simp] theorem climb_none (steps : Nat) : g.climb k n steps none = none := by
  cases steps <;> rfl

theorem findFrom_eq {c : String} {seen : List String} (hc : c ∉ seen) :
    g.findFrom k n seen c =
      (g.ownProvenance? c k n).or ((g.superClass? c).bind (g.findFrom k n (c :: seen))) := by
  rw [ownProvenance?, superClass?]
  rcases hnode : g.nodes.get? c with _ | node
  · rw [findFrom_of_none hnode]
    rfl
  · rw [findFrom_of_some hc hnode, Option.bind_some, Option.bind_some]
    split
    · rfl
    · cases node.mixins.find? fun x => g.declares x k n <;> rfl

def Barren (g : Hierarchy) (k : Category) (n : String) (seen : List String) (next : String) : Prop :=
  ∀ s ∈ seen, g.ownProvenance? s k n = none ∧ ∀ p ∈ g.superClass? s, p ∈ seen ∨ p = next

theorem barren_nil (next : String) : g.Barren k n [] next := by
  intro s hs
  cases hs

theorem Barren.cons {seen : List String} {c p : String} (h : g.Barren k n seen c)
    (hown : g.ownProvenance? c k n = none) (hp : g.superClass? c = some p) :
    g.Barren k n (c :: seen) p := by
  intro s hs
  rcases List.mem_cons.1 hs with rfl | hs
  · refine ⟨hown, fun p' hp' => .inr ?_⟩
    rw [Option.mem_def, hp] at hp'
    exact (Option.some.inj hp').symm
  · refine ⟨(h s hs).1, fun p' hp' => .inl ?_⟩
    rcases (h s hs).2 p' hp' with hmem | rfl
    · exact List.mem_cons_of_mem _ hmem
    · exact List.mem_cons_self

theorem Barren.climb_eq_none {seen : List String} {next c : String} (h : g.Barren k n seen next)
    (hnext : next ∈ seen) (hc : c ∈ seen) (steps : Nat) : g.climb k n steps (some c) = none := by
  induction steps generalizing c with
  | zero => rfl
  | succ steps ih =>
    obtain ⟨hown, hsuper⟩ := h c hc
    rw [climb, hown, Option.none_or]
    rcases hp : g.superClass? c with _ | p
    · exact climb_none steps
    · rcases hsuper p hp with hmem | rfl
      · exact ih hmem
      · exact ih hnext

theorem Barren.climb_eq_findFrom {seen : List String} {c : String} {steps : Nat}
    (h : g.Barren k n seen c) (hsteps : g.nodes.unseen seen ≤ steps) :
    g.climb k n steps (some c) = g.findFrom k n seen c := by
  by_cases hc : c ∈ seen
  · -- the search stops on a circle, the climb goes on in vain
    rw [findFrom_of_mem hc, h.climb_eq_none hc hc]
  rcases hnode : g.nodes.get? c with _ | node
  · rw [findFrom_of_none hnode]
    cases steps with
    | zero => rfl
    | succ steps => simp [climb, ownProvenance?, superClass?, hnode]
  have hlt := Table.unseen_cons_lt hnode (by simpa using hc)
  obtain ⟨steps, rfl⟩ : ∃ s, steps = s + 1 := ⟨steps - 1, by omega⟩
  rw [climb, findFrom_eq hc]
  rcases hown : g.ownProvenance? c k n with _ | p
  · rcases hp : g.superClass? c with _ | p
    · simp
    · rw [Option.none_or, Option.none_or, Option.bind_some]
      exact (h.cons hown hp).climb_eq_findFrom (by omega)
  · rfl
termination_by g.nodes.unseen seen

theorem provenance?_eq_climb {c : String} {steps : Nat} (hsteps : g.nodes.unseen [c] ≤ steps) :
    g.provenance? c k n = (g.ownProvenance? c k n).or (g.climb k n steps (g.superClass? c)) := by
  rw [provenance?, findFrom_eq List.not_mem_nil]
  rcases hown : g.ownProvenance? c k n with _ | p
  · rcases hp : g.superClass? c with _ | p
    · simp
    · rw [Option.bind_some, ((barren_nil c).cons hown hp).climb_eq_findFrom hsteps]
  · rfl

end ClassForge.Hierarchy
