import ClassForge.Compilation.Info
import ClassForge.Table.Walk

/-!
# Growing a set of classes

Beginning with some classes, whatever they depend on is compiled, round by round, until no new class
turns up. A class that cannot be compiled leads nowhere; a name that no class has is remarked once.
-/

namespace ClassForge

/-- How far a set of classes has grown. -/
structure Expansion where
  seen : List String := []
  frontier : List String := []
  next : List String := []
  failures : List CompileFailure := []
  markers : List Marker := []

namespace Expansion

def start (known : String → Bool) (roots : List String) : Expansion :=
  let present := roots.filter known
  { seen := present, frontier := present,
    markers := (roots.filter fun c => !known c).map fun c =>
      Marker.error Marker.missingClass c ("Application class " ++ c ++ " does not exist") }

def need (known : String → Bool) (classname : String) (e : Expansion) (name : String) : Expansion :=
  if e.seen.contains name then e
  else if known name then { e with seen := name :: e.seen, next := e.next ++ [name] }
  else
    { e with
      seen := name :: e.seen
      markers := e.markers ++
        [.warning Marker.missingClass classname ("Dependency " ++ name ++ " does not exist")] }

def absorb (known : String → Bool) (e : Expansion) (classname : String) :
    CompileOutcome → Expansion
  | .error f => { e with failures := e.failures ++ [f] }
  | .ok info => info.dependsOn.keys.foldl (need known classname) e

def round (known : String → Bool) (e : Expansion) (results : List (String × CompileOutcome)) :
    Expansion :=
  let e' := results.foldl (fun (e : Expansion) (c, o) => e.absorb known c o) { e with next := [] }
  { e' with frontier := e'.next, next := [] }

/-! ## With a fixed outcome for every class -/

section Fixed

variable (service : Table CompileOutcome)

theorem unseen_need (c : String) (e : Expansion) (name : String) :
    service.unseen (e.need service.contains c name).seen +
        (e.need service.contains c name).next.length ≤
      service.unseen e.seen + e.next.length := by
  unfold need
  split
  · exact Nat.le_refl _
  · rename_i hs
    split
    · rename_i hk
      obtain ⟨o, ho⟩ := Option.isSome_iff_exists.1 hk
      have := Table.unseen_cons_lt ho (by simpa using hs)
      simp only [List.length_append, List.length_singleton]
      omega
    · have := service.unseen_cons_le name e.seen
      simp only
      omega

theorem unseen_foldl_need (c : String) (names : List String) (e : Expansion) :
    service.unseen (names.foldl (need service.contains c) e).seen +
        (names.foldl (need service.contains c) e).next.length ≤
      service.unseen e.seen + e.next.length := by
  induction names generalizing e with
  | nil => exact Nat.le_refl _
  | cons n rest ih => exact Nat.le_trans (ih _) (unseen_need service c e n)

theorem unseen_absorb (e : Expansion) (c : String) (o : CompileOutcome) :
    service.unseen (e.absorb service.contains c o).seen +
        (e.absorb service.contains c o).next.length ≤
      service.unseen e.seen + e.next.length := by
  cases o with
  | error _ => exact Nat.le_refl _
  | ok info => exact unseen_foldl_need service c info.dependsOn.keys e

theorem unseen_foldl_absorb (l : List (String × CompileOutcome)) (e : Expansion) :
    service.unseen (l.foldl (fun e (c, o) => e.absorb service.contains c o) e).seen +
        (l.foldl (fun e (c, o) => e.absorb service.contains c o) e).next.length ≤
      service.unseen e.seen + e.next.length := by
  induction l generalizing e with
  | nil => exact Nat.le_refl _
  | cons x rest ih => exact Nat.le_trans (ih _) (unseen_absorb service e x.1 x.2)

theorem unseen_round (e : Expansion) (results : List (String × CompileOutcome)) :
    service.unseen (e.round service.contains results).seen +
        (e.round service.contains results).frontier.length ≤ service.unseen e.seen :=
  unseen_foldl_absorb service results { e with next := [] }

def outcomeOf (c : String) : CompileOutcome :=
  service.getD c (.error ⟨c, "no source file for class"⟩)

def results (e : Expansion) : List (String × CompileOutcome) :=
  e.frontier.map fun c => (c, outcomeOf service c)

/-- Lets the set grow to its end. Gives what came of every class that was compiled as well, in the
order of compiling. -/
def grow (e : Expansion) : Expansion × List (String × CompileOutcome) :=
  if _h : e.frontier = [] then (e, [])
  else
    let rest := grow (e.round service.contains (results service e))
    (rest.1, results service e ++ rest.2)
termination_by service.unseen e.seen + e.frontier.length
decreasing_by
  have h := unseen_round service e (results service e)
  have := List.length_pos_iff.2 _h
  omega

end Fixed

end Expansion

end ClassForge
