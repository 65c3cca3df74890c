import ClassForge.Compilation.Info
import ClassForge.Table.Walk

/-!
# The order in which classes are loaded

A class has to be loaded after the classes it needs for that. If a class is needed for loading, it
may be constructed while loading, so what it needs for constructing is needed for loading as well.

The order is found by a depth-first search, whose stack holds classes to enter and classes to leave.
What is needed only later follows: the classes in the order are taken from the end, and for each of
them the classes it depends on are visited in the same way.
-/

namespace ClassForge.LoadOrder

def indirectNeeds (classes : Table BuildInfo) (classname : String) (info : BuildInfo) : NameSet :=
  NameSet.ofNames (classes.walk (fun i => i.constructNeeds.filter (· ≠ classname)) [] info.loadNeeds)

def allNeeds (classes : Table BuildInfo) : Table NameSet :=
  classes.map fun c info => indirectNeeds classes c info

/-- What is still to be done in a depth-first search. -/
inductive Visit where
  | enter (classname : String)
  /-- All that the class needs has been visited: it comes next in the order. -/
  | leave (classname : String)
deriving DecidableEq

/-- How many classes are left on the way. -/
def leaves (stack : List Visit) : Nat :=
  (stack.filter fun | .enter _ => false | .leave _ => true).length

variable {α : Type}

/-- Visits what is on the stack. Gives the classes that are left, in order, and the classes visited
so far. Names without an entry are passed over. -/
def visit (classes : Table α) (needs : Table NameSet) (visited : List String) :
    (stack : List Visit) → List String × List String
  | [] => ([], visited)
  | .leave c :: rest =>
    let (order, visited) := visit classes needs visited rest
    (c :: order, visited)
  | .enter c :: rest =>
    if _hv : visited.contains c then visit classes needs visited rest
    else
      match _hc : classes.get? c with
      | none => visit classes needs visited rest
      | some _ =>
        visit classes needs (c :: visited)
          ((needs.getD c .empty).toNames.map .enter ++ .leave c :: rest)
termination_by stack => (classes.unseen visited, stack.length)
decreasing_by
  · exact Prod.Lex.right _ (by simp)
  · exact Prod.Lex.right _ (by simp)
  · exact Prod.Lex.right _ (by simp)
  · exact Prod.Lex.left _ _ (Table.unseen_cons_lt _hc (by simpa using _hv))

theorem leaves_enter (names : List String) : leaves (names.map .enter) = 0 := by
  induction names with
  | nil => rfl
  | cons _ _ ih => simp [leaves]

theorem leaves_append (s t : List Visit) : leaves (s ++ t) = leaves s + leaves t := by
  simp [leaves]

theorem unseen_visit (classes : Table α) (needs : Table NameSet) (visited : List String)
    (stack : List Visit) :
    classes.unseen (visit classes needs visited stack).2 +
        (visit classes needs visited stack).1.length ≤
      classes.unseen visited + leaves stack := by
  fun_induction visit classes needs visited stack with
  | case1 => simp [leaves]
  | case2 visited c rest order visited' h ih =>
    simp only [h] at ih
    simp only [leaves, List.filter_cons, List.length_cons, if_true] at ih ⊢
    omega
  | case3 visited c rest hv ih => simpa [leaves] using ih
  | case4 visited c rest hv hc ih => simpa [leaves] using ih
  | case5 visited c rest hv info hc ih =>
    have hlt := Table.unseen_cons_lt hc (by simpa using hv)
    rw [leaves_append, leaves_enter] at ih
    simp only [leaves, List.filter_cons, List.length_cons, if_true] at ih ⊢
    simp only [Bool.false_eq_true, if_false]
    omega

def settle (classes : Table BuildInfo) (needs : Table NameSet) (visited : List String) :
    (stack : List String) → List String
  | [] => []
  | c :: rest =>
    let later := ((classes.get? c).map fun i => i.dependsOn.keys).getD []
    let found := visit classes needs visited (later.map .enter)
    found.1 ++ settle classes needs found.2 (found.1.reverse ++ rest)
termination_by stack => classes.unseen visited + stack.length
decreasing_by
  have h := unseen_visit classes needs visited
    ((((classes.get? c).map fun i => i.dependsOn.keys).getD []).map .enter)
  rw [leaves_enter] at h
  simp only [List.length_append, List.length_reverse, List.length_cons]
  omega

def ofRoots (classes : Table BuildInfo) (needs : Table NameSet) (roots : List String) :
    List String :=
  let first := visit classes needs [] (roots.map .enter)
  first.1 ++ settle classes needs first.2 first.1.reverse

end ClassForge.LoadOrder
