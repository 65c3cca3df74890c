import ClassForge.Hierarchy
import ClassForge.Proofs.Walk
import Mathlib.Data.List.Basic
import Mathlib.Data.List.Find
import Mathlib.Data.List.Nodup

/-!
# Walks of the class hierarchy

A class lies below those it points at and below those that these lie below. What is asked of a class
in the hierarchy is answered by the classes above it, so that two hierarchies that agree there give
the same answer. Walking down finds the same pairs of classes as walking up.
-/

namespace ClassForge

/-! ## Nodes -/

namespace HierarchyNode

theorem mem_targets {n : HierarchyNode} {x : String} :
    x ∈ n.targets ↔ n.superClass = some x ∨ x ∈ n.mixins ∨ x ∈ n.interfaces := by
  simp [targets, edges, Function.comp_def]

theorem contains_ownNames {α : Type} {isOwn : α → Bool} {t : Table α} {k : String} :
    (ownNames isOwn t).contains k = true ↔ ∃ a, t.get? k = some a ∧ isOwn a = true := by
  rw [Table.contains_iff, ownNames]
  simp [Option.filter_eq_some_iff]

end HierarchyNode

namespace Hierarchy

open Table (Reach Leads)

variable {g g' : Hierarchy} {records : List ClassRecord} {seen : List String} {c x n : String}
  {k : Category}

/-- The second class is the first, or the first derives from it. -/
abbrev Above (g : Hierarchy) : String → String → Prop := g.nodes.Reach HierarchyNode.targets

/-! ## Following superclasses -/

theorem findFrom_of_mem (h : c ∈ seen) : g.findFrom k n seen c = none := by
  rw [findFrom, dif_pos (by simpa using h)]

theorem findFrom_of_none (hc : g.nodes.get? c = none) : g.findFrom k n seen c = none := by
  rw [findFrom]
  split
  · rfl
  · split
    · rfl
    · simp_all

theorem findFrom_of_some {node : HierarchyNode} (hs : c ∉ seen) (hc : g.nodes.get? c = some node) :
    g.findFrom k n seen c =
      if node.declares k n then some (.overriddenFrom c)
      else match node.mixins.find? fun m => g.declares m k n with
        | some m => some (.mixin m)
        | none => node.superClass.bind (g.findFrom k n (c :: seen)) := by
  rw [findFrom, dif_neg (by simpa using hs)]
  split
  · simp_all
  · rename_i node' hc'
    obtain rfl : node' = node := Option.some.inj (hc'.symm.trans hc)
    split
    · rfl
    · cases node'.mixins.find? fun m => g.declares m k n with
      | some m => rfl
      | none => cases node'.superClass <;> rfl

/-! ## Building -/

theorem build_congr {records' : List ClassRecord}
    (h : records.map (fun r => (r.classname, HierarchyNode.ofRecord r)) =
      records'.map (fun r => (r.classname, HierarchyNode.ofRecord r))) :
    build records = build records' := by
  let add (g : Hierarchy) (p : String × HierarchyNode) : Hierarchy :=
    { nodes := g.nodes.insert p.1 p.2
      derived := p.2.targets.foldl
        (fun d target => d.insert target (NameSet.add (d.getD target .empty) p.1)) g.derived }
  have hbuild : ∀ l : List ClassRecord,
      build l = (l.map fun r => (r.classname, HierarchyNode.ofRecord r)).foldl add {} := by
    intro l
    rw [List.foldl_map]
    rfl
  rw [hbuild, hbuild, h]

theorem nodes_foldl_addRecord (records : List ClassRecord) (g : Hierarchy) (c : String) :
    (records.foldl addRecord g).nodes.get? c =
      ((records.reverse.find? fun r => r.classname = c).map HierarchyNode.ofRecord).or
        (g.nodes.get? c) := by
  induction records generalizing g with
  | nil => simp
  | cons r rest ih =>
    rw [List.foldl_cons, ih, List.reverse_cons, List.find?_append]
    cases rest.reverse.find? fun r => decide (r.classname = c) with
    | none =>
      by_cases hc : r.classname = c
      · subst hc
        simp [addRecord]
      · simp [addRecord, hc, Table.get?_insert_of_ne (Ne.symm hc)]
    | some r' => simp

theorem mem_getD_foldl_add {targets : List String} {d : Table NameSet} {y : String} :
    y ∈ ((targets.foldl
        (fun d target => d.insert target (NameSet.add (d.getD target .empty) c)) d).getD
          x .empty).keys ↔ (y = c ∧ x ∈ targets) ∨ y ∈ (d.getD x .empty).keys := by
  induction targets generalizing d with
  | nil => simp
  | cons target rest ih =>
    rw [List.foldl_cons, ih]
    by_cases h : x = target
    · subst h
      have hadd := NameSet.mem_add (s := d.getD x .empty) (x := y) (y := c)
      simp only [NameSet.toNames] at hadd
      simp only [Table.getD, Table.get?_insert_self, Option.getD_some, List.mem_cons, true_or,
        and_true]
      simp only [Table.getD] at hadd
      rw [hadd]
      grind
    · simp [Table.getD, Table.get?_insert_of_ne h, h]

theorem mem_directDerived_foldl_addRecord :
    x ∈ (records.foldl addRecord g).directDerived c ↔
      (∃ r ∈ records, r.classname = x ∧ c ∈ (HierarchyNode.ofRecord r).targets) ∨
        x ∈ g.directDerived c := by
  induction records generalizing g with
  | nil => simp
  | cons r rest ih =>
    rw [List.foldl_cons, ih]
    simp only [directDerived, addRecord, mem_getD_foldl_add, List.mem_cons, exists_eq_or_imp]
    grind

theorem mem_directDerived_build :
    x ∈ (build records).directDerived c ↔
      ∃ r ∈ records, r.classname = x ∧ c ∈ (HierarchyNode.ofRecord r).targets := by
  rw [build, mem_directDerived_foldl_addRecord]
  simp [directDerived, Table.getD, Table.mem_keys]

theorem nodes_build (h : (records.map ClassRecord.classname).Nodup) {n : HierarchyNode} :
    (build records).nodes.get? c = some n ↔
      ∃ r ∈ records, r.classname = c ∧ HierarchyNode.ofRecord r = n := by
  have hget := nodes_foldl_addRecord records {} c
  rw [build, hget]
  simp only [Table.get?_empty, Option.or_none, Option.map_eq_some_iff]
  constructor
  · rintro ⟨r, hr, rfl⟩
    exact ⟨r, by simpa using List.mem_of_find?_eq_some hr, by simpa using List.find?_some hr, rfl⟩
  · rintro ⟨r, hr, rfl, rfl⟩
    rcases hf : records.reverse.find? fun r' => r'.classname = r.classname with _ | r'
    · exact absurd (List.find?_eq_none.1 hf r (List.mem_reverse.2 hr)) (by simp)
    · have hr' : r' ∈ records := by simpa using List.mem_of_find?_eq_some hf
      have hname : r'.classname = r.classname := by simpa using List.find?_some hf
      exact ⟨r', hf, by rw [List.inj_on_of_nodup_map h hr' hr hname]⟩

/-! ## Walking down -/

def Mirrored (g : Hierarchy) : Prop :=
  ∀ c x, x ∈ g.directDerived c ↔ g.nodes.Leads HierarchyNode.targets x c

theorem mirrored_build (h : (records.map ClassRecord.classname).Nodup) :
    (build records).Mirrored := by
  intro c x
  rw [mem_directDerived_build]
  simp only [Leads, nodes_build h]
  grind

theorem leads_derived_iff : g.derived.Leads Table.keys c x ↔ x ∈ g.directDerived c := by
  rw [directDerived, Table.getD]
  rcases h : g.derived.get? c with _ | s
  · simp [Leads, h, Table.keys, Table.empty]
  · simp [Leads, h]

theorem Mirrored.mem_derivedClosure (hg : g.Mirrored) {seeds : List String} :
    x ∈ (g.derivedClosure seeds).toNames ↔ ∃ s ∈ seeds, g.Above x s := by
  have hswap : g.derived.Leads Table.keys =
      Function.swap (g.nodes.Leads HierarchyNode.targets) := by
    funext c x
    exact propext (leads_derived_iff.trans (hg c x))
  rw [derivedClosure, NameSet.mem_ofNames, Table.mem_walk_nil_iff]
  simp only [Reach, hswap, Relation.reflTransGen_swap]

/-! ## Agreement above a class -/

def AgreeAbove (g g' : Hierarchy) (c : String) : Prop :=
  ∀ x, g.Above c x → g.nodes.get? x = g'.nodes.get? x

theorem AgreeAbove.mono (h : g.AgreeAbove g' c) (hx : g.Above c x) :
    g.AgreeAbove g' x := fun y hy => h y (hx.trans hy)

theorem AgreeAbove.of_above (h : g.AgreeAbove g' c) (hx : g'.Above c x) : g.Above c x := by
  induction hx with
  | refl => exact .refl
  | tail _ hbc ih =>
    obtain ⟨node, hnode, hmem⟩ := hbc
    exact ih.tail ⟨node, (h _ ih).trans hnode, hmem⟩

theorem AgreeAbove.declares (h : g.AgreeAbove g' c) (hx : g.Above c x) :
    g.declares x k n = g'.declares x k n := by
  rw [Hierarchy.declares, Hierarchy.declares, h x hx]

theorem above_of_leads {node : HierarchyNode} (hc : g.nodes.get? c = some node)
    (hx : x ∈ node.targets) : g.Above c x := .single ⟨node, hc, hx⟩

theorem AgreeAbove.ancestry (h : g.AgreeAbove g' c) : g.ancestry c = g'.ancestry c := by
  rw [Hierarchy.ancestry, Hierarchy.ancestry, Hierarchy.edges, Hierarchy.edges, ← h c .refl]
  apply Table.walk_congr
  intro x hx y hy
  rcases hc : g.nodes.get? c with _ | node
  · simp [hc] at hx
  · have hx' : x ∈ node.targets := by simpa [hc, HierarchyNode.targets] using hx
    exact h y ((above_of_leads hc hx').trans hy)

theorem above_of_mem_ancestry (h : x ∈ g.ancestry c) : g.Above c x := by
  obtain ⟨_, y, hy, hr⟩ := Table.reach_of_mem_walk h
  rcases hc : g.nodes.get? c with _ | node
  · simp [Hierarchy.edges, hc] at hy
  · have hy' : y ∈ node.targets := by simpa [Hierarchy.edges, hc, HierarchyNode.targets] using hy
    exact (above_of_leads hc hy').trans hr

theorem AgreeAbove.appearsIn (h : g.AgreeAbove g' c) : g.appearsIn c k n = g'.appearsIn c k n := by
  rw [Hierarchy.appearsIn, Hierarchy.appearsIn, ← h.ancestry]
  apply List.filter_congr
  intro x hx
  exact h.declares (above_of_mem_ancestry hx)

theorem reach_interfaces_le {y : String} (h : g.nodes.Reach (·.interfaces) x y) : g.Above x y := by
  refine Relation.ReflTransGen.mono ?_ _ _ h
  rintro a b ⟨node, hnode, hb⟩
  exact ⟨node, hnode, HierarchyNode.mem_targets.2 (.inr (.inr hb))⟩

theorem above_of_bindingStart {node : HierarchyNode} (hc : g.nodes.get? c = some node)
    (hx : x ∈ node.interfaces ++
      node.mixins.flatMap fun m => ((g.nodes.get? m).map (·.interfaces)).getD []) :
    g.Above c x := by
  rcases List.mem_append.1 hx with hx | hx
  · exact above_of_leads hc (HierarchyNode.mem_targets.2 (.inr (.inr hx)))
  · obtain ⟨m, hm, hx⟩ := List.mem_flatMap.1 hx
    rcases hn : g.nodes.get? m with _ | mixin
    · simp [hn] at hx
    · have hx' : x ∈ mixin.interfaces := by simpa [hn] using hx
      exact (above_of_leads hc (HierarchyNode.mem_targets.2 (.inr (.inl hm)))).trans
        (above_of_leads hn (HierarchyNode.mem_targets.2 (.inr (.inr hx'))))

theorem above_of_mem_boundInterfaces (h : x ∈ g.boundInterfaces c) : g.Above c x := by
  rw [boundInterfaces] at h
  rcases hc : g.nodes.get? c with _ | node
  · simp [hc] at h
  · simp only [hc] at h
    obtain ⟨_, y, hy, hr⟩ := Table.reach_of_mem_walk h
    exact (above_of_bindingStart hc hy).trans (reach_interfaces_le hr)

theorem AgreeAbove.boundInterfaces (h : g.AgreeAbove g' c) :
    g.boundInterfaces c = g'.boundInterfaces c := by
  rw [Hierarchy.boundInterfaces, Hierarchy.boundInterfaces, ← h c .refl]
  rcases hc : g.nodes.get? c with _ | node
  · rfl
  · have hmixins : (node.mixins.flatMap fun m => ((g.nodes.get? m).map (·.interfaces)).getD []) =
        node.mixins.flatMap fun m => ((g'.nodes.get? m).map (·.interfaces)).getD [] := by
      apply List.flatMap_congr
      intro m hm
      rw [h m (above_of_leads hc (HierarchyNode.mem_targets.2 (.inr (.inl hm))))]
    simp only [← hmixins]
    apply Table.walk_congr
    intro x hx y hy
    exact h y ((above_of_bindingStart hc hx).trans (reach_interfaces_le hy))

theorem AgreeAbove.find?_mixins {node : HierarchyNode} (h : g.AgreeAbove g' c)
    (hc : g.nodes.get? c = some node) :
    node.mixins.find? (fun m => g.declares m k n) =
      node.mixins.find? fun m => g'.declares m k n := by
  apply List.find?_congr
  intro x hx
  exact h.declares (above_of_leads hc (HierarchyNode.mem_targets.2 (.inr (.inl hx))))

theorem AgreeAbove.findFrom {c n : String} {k : Category} {seen : List String}
    (h : g.AgreeAbove g' c) : g.findFrom k n seen c = g'.findFrom k n seen c := by
  by_cases hs : c ∈ seen
  · rw [findFrom_of_mem hs, findFrom_of_mem hs]
  rcases hc : g.nodes.get? c with _ | node
  · rw [findFrom_of_none hc, findFrom_of_none ((h c .refl).symm.trans hc)]
  rw [findFrom_of_some hs hc, findFrom_of_some hs ((h c .refl).symm.trans hc), h.find?_mixins hc]
  rcases hp : node.superClass with _ | parent
  · rfl
  · simp only [Option.bind_some]
    rw [AgreeAbove.findFrom (h.mono (above_of_leads hc (HierarchyNode.mem_targets.2 (.inl hp))))]
termination_by g.nodes.unseen seen
decreasing_by exact Table.unseen_cons_lt hc (by simpa using hs)

theorem AgreeAbove.provenance? (h : g.AgreeAbove g' c) :
    g.provenance? c k n = g'.provenance? c k n := h.findFrom

/-! ## Hierarchies of records -/

variable {record? : String → Option ClassRecord} {r : ClassRecord}

def Shows (g : Hierarchy) (record? : String → Option ClassRecord) : Prop :=
  ∀ c, g.nodes.get? c = (record? c).map HierarchyNode.ofRecord

theorem Shows.node (hg : g.Shows record?) (hr : record? c = some r) :
    g.nodes.get? c = some (HierarchyNode.ofRecord r) := by
  rw [hg, hr]
  rfl

theorem Shows.declares (hg : g.Shows record?) :
    g.declares c k n = (record? c).any fun r => (HierarchyNode.ofRecord r).declares k n := by
  rw [Hierarchy.declares, hg c]
  cases record? c <;> rfl

theorem Shows.provenance?_own (hg : g.Shows record?) (hr : record? r.classname = some r)
    (h : (HierarchyNode.ofRecord r).declares k n = true) :
    g.provenance? r.classname k n = some (.overriddenFrom r.classname) := by
  rw [Hierarchy.provenance?, findFrom_of_some (by simp) (hg.node hr), if_pos h]

theorem Shows.provenance?_mixin (hg : g.Shows record?) (hr : record? r.classname = some r)
    (h : (HierarchyNode.ofRecord r).declares k n = false)
    (hx : r.mixins.find? (fun x => g.declares x k n) = some x) :
    g.provenance? r.classname k n = some (.mixin x) := by
  have hx' : (HierarchyNode.ofRecord r).mixins.find? (fun x => g.declares x k n) = some x := hx
  rw [Hierarchy.provenance?, findFrom_of_some (by simp) (hg.node hr), if_neg (by simp [h]), hx']

end Hierarchy

end ClassForge
