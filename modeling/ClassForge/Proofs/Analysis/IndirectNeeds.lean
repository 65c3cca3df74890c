import ClassForge.Analysis.LoadOrder
import ClassForge.Proofs.Walk
import Mathlib.Logic.Function.Iterate
import Mathlib.Order.Bounds.Defs

/-!
# What a class needs for loading, directly or not

A class that is needed for loading brings along what it needs for constructing. What comes of that for
a class is the least set that is closed in this way. It is found by a walk whose queue is empty after a
bounded number of turns, also where classes need each other in a circle.
-/

namespace ClassForge

namespace Table

variable {α : Type} (edges : α → List String) (t : Table α)

/-- A turn of a walk: the first name of the queue is passed over if it has been seen; otherwise what
it leads to joins the queue. -/
def turn : (work : List String × List String) → List String × List String
  | (seen, []) => (seen, [])
  | (seen, x :: rest) =>
    if seen.contains x then (seen, rest)
    else (x :: seen, rest ++ ((t.get? x).map edges).getD [])

theorem exists_turns (seen queue : List String) :
    ∃ n ≤ t.weight (fun a => (edges a).length) seen + queue.length,
      (turn edges t)^[n] (seen, queue) = ((t.walk edges seen queue).reverse ++ seen, []) := by
  fun_induction walk edges t seen queue with
  | case1 seen => exact ⟨0, Nat.zero_le _, rfl⟩
  | case2 seen x rest hs ih =>
    obtain ⟨n, hn, hturns⟩ := ih
    refine ⟨n + 1, by rw [List.length_cons]; omega, ?_⟩
    rw [Function.iterate_succ_apply, turn, if_pos hs, hturns]
  | case3 seen x rest hs hx ih =>
    obtain ⟨n, hn, hturns⟩ := ih
    have hle := t.weight_cons_le (fun a => (edges a).length) x seen
    refine ⟨n + 1, by rw [List.length_cons]; omega, ?_⟩
    rw [Function.iterate_succ_apply, turn, if_neg hs, hx]
    simpa using hturns
  | case4 seen x rest hs a hx ih =>
    obtain ⟨n, hn, hturns⟩ := ih
    have hle := weight_cons_add_le (fun a => (edges a).length) hx (by simpa using hs)
    rw [List.length_append] at hn
    refine ⟨n + 1, by rw [List.length_cons]; omega, ?_⟩
    rw [Function.iterate_succ_apply, turn, if_neg hs, hx]
    simpa using hturns

end Table

namespace LoadOrder

variable {classes : Table BuildInfo} {c n : String} {info : BuildInfo}

/-- A set with all that a class needs for loading: with a class of the set it has what that class needs
for constructing, but for the class itself. -/
structure Suffices (classes : Table BuildInfo) (c : String) (info : BuildInfo) (s : Set String) :
    Prop where
  load : ∀ n needs, info.dependsOn.get? n = some needs → needs.load = true → n ∈ s
  construct : ∀ a ∈ s, ∀ i, classes.get? a = some i → ∀ n needs, i.dependsOn.get? n = some needs →
    needs.construct = true → n ≠ c → n ∈ s

theorem mem_keys_filter {α : Type} {t : Table α} {p : α → Bool} :
    n ∈ (t.filter fun _ a => p a).keys ↔ ∃ a, t.get? n = some a ∧ p a = true := by
  simp [Table.mem_keys, Option.filter_eq_some_iff]

/-- What a class of the table leads to, when the needs of `c` are looked for. -/
def constructedBy (c : String) (i : BuildInfo) : List String := i.constructNeeds.filter (· ≠ c)

theorem leads_iff {a : String} : classes.Leads (constructedBy c) a n ↔ ∃ i, classes.get? a = some i ∧
    (∃ needs, i.dependsOn.get? n = some needs ∧ needs.construct = true) ∧ n ≠ c := by
  simp [Table.Leads, constructedBy, BuildInfo.constructNeeds, mem_keys_filter]

theorem mem_indirectNeeds : n ∈ (indirectNeeds classes c info).toNames ↔
    ∃ a ∈ info.loadNeeds, classes.Reach (constructedBy c) a n := by
  rw [indirectNeeds, NameSet.mem_ofNames]
  exact Table.mem_walk_nil_iff

theorem suffices_indirectNeeds :
    Suffices classes c info {n | n ∈ (indirectNeeds classes c info).toNames} where
  load n needs hn hload :=
    mem_indirectNeeds.2 ⟨n, mem_keys_filter.2 ⟨needs, hn, hload⟩, .refl⟩
  construct a ha i hi n needs hn hconstruct hne := by
    obtain ⟨first, hfirst, hreach⟩ := mem_indirectNeeds.1 ha
    have hlead : classes.Leads (constructedBy c) a n :=
      leads_iff.2 ⟨i, hi, ⟨needs, hn, hconstruct⟩, hne⟩
    exact mem_indirectNeeds.2 ⟨first, hfirst, hreach.tail hlead⟩

theorem Suffices.mem {s : Set String} (h : Suffices classes c info s) {a : String}
    (ha : a ∈ info.loadNeeds) (hreach : classes.Reach (constructedBy c) a n) : n ∈ s := by
  induction hreach with
  | refl =>
    obtain ⟨needs, hget, hload⟩ := mem_keys_filter.1 ha
    exact h.load a needs hget hload
  | tail _ hlead ih =>
    obtain ⟨i, hi, ⟨needs, hget, hconstruct⟩, hne⟩ := leads_iff.1 hlead
    exact h.construct _ ih i hi _ needs hget hconstruct hne

/-- The needs of each class are the least set that suffices, and the walk that finds them is over after
as many turns as there are needs to look at. -/
theorem allNeeds_isLeast (classes : Table BuildInfo) : (allNeeds classes).keys = classes.keys ∧
    ∀ c info, classes.get? c = some info → ∃ needs, (allNeeds classes).get? c = some needs ∧
      IsLeast {s | Suffices classes c info s} {n | n ∈ needs.toNames} ∧
      ∃ turns ≤ classes.weight (fun i => (constructedBy c i).length) [] + info.loadNeeds.length,
        ∃ seen, (Table.turn (constructedBy c) classes)^[turns] ([], info.loadNeeds) = (seen, []) ∧
          ∀ n, n ∈ seen ↔ n ∈ needs.toNames := by
  refine ⟨by simp [allNeeds, Table.keys, Table.map, Function.comp_def], ?_⟩
  intro c info hinfo
  refine ⟨indirectNeeds classes c info, by simp [allNeeds, hinfo], ⟨suffices_indirectNeeds, ?_⟩, ?_⟩
  · intro s hs n hn
    obtain ⟨a, ha, hreach⟩ := mem_indirectNeeds.1 hn
    exact Suffices.mem hs ha hreach
  · obtain ⟨turns, hle, hturns⟩ := Table.exists_turns (constructedBy c) classes [] info.loadNeeds
    refine ⟨turns, hle, _, hturns, fun n => ?_⟩
    rw [List.append_nil, List.mem_reverse, indirectNeeds, NameSet.mem_ofNames]
    rfl

def needing (classname : String) (dependsOn : List (String × Needs)) : String × BuildInfo :=
  (classname, { classname, hash := "", sourceTime := 0, dependsOn := .ofList dependsOn })

/-- Two classes that need each other for constructing, and the class that loads one of them. -/
def circle : Table BuildInfo := .ofList [
  needing "a.A" [("b.B", { load := true })],
  needing "b.B" [("c.C", { construct := true }), ("gone", { construct := true })],
  needing "c.C" [("a.A", { construct := true }), ("b.B", { construct := true })]]

theorem allNeeds_isLeast_circle : ∃ info needs, circle.get? "a.A" = some info ∧
    (allNeeds circle).get? "a.A" = some needs ∧
      IsLeast {s | Suffices circle "a.A" info s} {n | n ∈ needs.toNames} := by
  refine ⟨(needing "a.A" [("b.B", { load := true })]).2, ?_⟩
  have hinfo : circle.get? "a.A" = some (needing "a.A" [("b.B", { load := true })]).2 := by decide
  obtain ⟨needs, hneeds, hleast, -⟩ := (allNeeds_isLeast circle).2 "a.A" _ hinfo
  exact ⟨needs, hinfo, hneeds, hleast⟩

end LoadOrder

end ClassForge
