import ClassForge.Proofs.Hierarchy.Climb
import ClassForge.Proofs.Walk.Distance

/-!
# Ancestors and heirs

Walking up from a class finds what can be reached from it, nearer classes first, and walking down finds
the same pairs the other way round. The classes above one that declare a name are therefore listed each
once, in the order of their distance, and where the class has the name from is among them.
-/

namespace ClassForge

/-- The class or mixin that a definition comes from. -/
def Provenance.source : Provenance → String
  | overriddenFrom c => c
  | mixin m => m

namespace Hierarchy

open Relation (TransGen)

variable {g : Hierarchy} {c d x n : String} {k : Category} {p : Provenance}

/-! ## Walking up -/

theorem leads_iff_mem_edges {y : String} :
    g.nodes.Leads HierarchyNode.targets c y ↔ y ∈ (g.edges c).map Prod.snd := by
  rw [Table.Leads, edges]
  cases g.nodes.get? c with
  | none => simp
  | some node => simp [HierarchyNode.targets]

theorem mem_ancestry : x ∈ g.ancestry c ↔ x ≠ c ∧ g.Above c x := by
  have hclosed : Table.Closed HierarchyNode.targets g.nodes [c] ((g.edges c).map Prod.snd) := by
    intro y hy z hz
    obtain rfl := List.mem_singleton.1 hy
    exact .inr (leads_iff_mem_edges.1 hz)
  rw [ancestry, Table.mem_walk_iff hclosed, List.mem_singleton]
  refine and_congr_right fun hne => ⟨?_, fun habove => ?_⟩
  · rintro ⟨y, hy, hreach⟩
    exact .head (leads_iff_mem_edges.2 hy) hreach
  · obtain rfl | ⟨y, hy, hreach⟩ := habove.cases_head
    · exact absurd rfl hne
    · exact ⟨y, leads_iff_mem_edges.1 hy, hreach⟩

/-- How many edges lead from a class to another, at least. -/
noncomputable abbrev distance (g : Hierarchy) : String → String → ℕ∞ :=
  g.nodes.distance HierarchyNode.targets

theorem pairwise_ancestry (g : Hierarchy) (c : String) :
    (g.ancestry c).Pairwise fun x y => g.distance c x ≤ g.distance c y :=
  (Table.Layered.start fun _ => leads_iff_mem_edges).pairwise_walk rfl

/-! ## Paths between records -/

/-- A class of some records extends, includes or implements another. -/
def PointsAt (records : List ClassRecord) (x y : String) : Prop :=
  ∃ r ∈ records, r.classname = x ∧ y ∈ r.hierarchyRefs

theorem mem_hierarchyRefs {r : ClassRecord} :
    x ∈ r.hierarchyRefs ↔ x ∈ (HierarchyNode.ofRecord r).targets := by
  rw [HierarchyNode.mem_targets, ClassRecord.hierarchyRefs]
  simp [HierarchyNode.ofRecord]

variable {records : List ClassRecord}

theorem leads_build (h : (records.map ClassRecord.classname).Nodup) :
    (build records).nodes.Leads HierarchyNode.targets = PointsAt records := by
  funext x y
  simp only [Table.Leads, nodes_build h, PointsAt, mem_hierarchyRefs]
  grind

theorem above_build (h : (records.map ClassRecord.classname).Nodup) :
    (build records).Above x d ↔ d = x ∨ TransGen (PointsAt records) x d := by
  rw [Above, Table.Reach, leads_build h, Relation.reflTransGen_iff_eq_or_transGen]

/-- Walking down from some classes finds these and all classes with a path to one of them, walking up
from a class all others it has a path to, so that both find the same pairs of different classes. -/
theorem derivedClosure_ancestry_dual (h : (records.map ClassRecord.classname).Nodup) :
    (∀ seeds x, x ∈ ((build records).derivedClosure seeds).toNames ↔
      x ∈ seeds ∨ ∃ s ∈ seeds, TransGen (PointsAt records) x s) ∧
    (∀ c d, d ∈ (build records).ancestry c ↔ c ≠ d ∧ TransGen (PointsAt records) c d) ∧
    ∀ c d, c ≠ d → (d ∈ (build records).ancestry c ↔
      c ∈ ((build records).derivedClosure [d]).toNames) := by
  have hdown (seeds : List String) (x : String) :
      x ∈ ((build records).derivedClosure seeds).toNames ↔ ∃ s ∈ seeds, (build records).Above x s :=
    (mirrored_build h).mem_derivedClosure
  refine ⟨fun seeds x => ?_, fun c d => ?_, fun c d hne => ?_⟩
  · simp only [hdown, above_build h]
    constructor
    · rintro ⟨s, hs, rfl | hpath⟩
      · exact .inl hs
      · exact .inr ⟨s, hs, hpath⟩
    · rintro (hx | ⟨s, hs, hpath⟩)
      · exact ⟨x, hx, .inl rfl⟩
      · exact ⟨s, hs, .inr hpath⟩
  · rw [mem_ancestry, above_build h, ne_comm]
    exact and_congr_right fun hne => or_iff_right (Ne.symm hne)
  · rw [mem_ancestry, hdown]
    simp [Ne.symm hne]

/-- Two classes that extend each other; one implements itself, the other includes a mixin that there is
no record of. -/
def tangle : List ClassRecord :=
  [{ ClassRecord.new "a.A" .ordinary with superClass := some "a.B", interfaces := ["a.A"] },
    { ClassRecord.new "a.B" .ordinary with superClass := some "a.A", mixins := ["n.N"] }]

theorem derivedClosure_ancestry_dual_tangle :
    (tangle.map ClassRecord.classname).Nodup ∧ (build tangle).ancestry "a.A" = ["a.B", "n.N"] ∧
      "a.A" ∈ ((build tangle).derivedClosure ["n.N"]).toNames := by
  have hnames : (tangle.map ClassRecord.classname).Nodup := by decide
  have hup : (build tangle).ancestry "a.A" = ["a.B", "n.N"] := by decide +kernel
  refine ⟨hnames, hup, ?_⟩
  exact ((derivedClosure_ancestry_dual hnames).2.2 "a.A" "n.N" (by decide)).1 (by simp [hup])

/-! ## Where a name appears -/

theorem of_ownProvenance? (h : g.ownProvenance? c k n = some p) :
    g.Above c p.source ∧ g.declares p.source k n = true := by
  rw [ownProvenance?, Option.bind_eq_some_iff] at h
  obtain ⟨node, hnode, h⟩ := h
  split_ifs at h with hdeclares
  · cases h
    refine ⟨.refl, ?_⟩
    rw [Provenance.source, declares, hnode]
    exact hdeclares
  · obtain ⟨m, hm, rfl⟩ := Option.map_eq_some_iff.1 h
    have hmixin : m ∈ node.mixins := List.mem_of_find?_eq_some hm
    have hdeclares : g.declares m k n = true := by simpa using List.find?_some hm
    exact ⟨above_of_leads hnode (HierarchyNode.mem_targets.2 (.inr (.inl hmixin))), hdeclares⟩

theorem above_of_superClass? (h : g.superClass? c = some d) : g.Above c d := by
  obtain ⟨node, hnode, hsuper⟩ := Option.bind_eq_some_iff.1 h
  exact above_of_leads hnode (HierarchyNode.mem_targets.2 (.inl hsuper))

theorem of_climb {steps : Nat} {ancestor : Option String}
    (h : g.climb k n steps ancestor = some p) :
    ∃ d, ancestor = some d ∧ g.Above d p.source ∧ g.declares p.source k n = true := by
  induction steps generalizing ancestor with
  | zero => cases h
  | succ steps ih =>
    cases ancestor with
    | none => cases h
    | some d =>
      rw [climb, Option.or_eq_some_iff] at h
      obtain hown | ⟨-, hclimb⟩ := h
      · exact ⟨d, rfl, of_ownProvenance? hown⟩
      · obtain ⟨e, hsuper, habove, hdeclares⟩ := ih hclimb
        exact ⟨d, rfl, (above_of_superClass? hsuper).trans habove, hdeclares⟩

theorem of_provenance? (h : g.provenance? c k n = some p) :
    g.Above c p.source ∧ g.declares p.source k n = true := by
  rw [provenance?_eq_climb (Nat.le_refl _), Option.or_eq_some_iff] at h
  obtain hown | ⟨-, hclimb⟩ := h
  · exact of_ownProvenance? hown
  · obtain ⟨d, hsuper, habove, hdeclares⟩ := of_climb hclimb
    exact ⟨(above_of_superClass? hsuper).trans habove, hdeclares⟩

theorem mem_appearsIn : x ∈ g.appearsIn c k n ↔
    x ≠ c ∧ g.Above c x ∧ g.declares x k n = true := by
  rw [appearsIn, List.mem_filter, mem_ancestry, and_assoc]

/-- The other classes above one that declare a name are listed each once, nearer ones first, and where
the class has the name from is among them unless that is the class itself. -/
theorem appearsIn_breadthFirst (g : Hierarchy) (c : String) (k : Category) (n : String) :
    (g.appearsIn c k n).Nodup ∧
    (∀ x, x ∈ g.appearsIn c k n ↔ x ≠ c ∧ g.Above c x ∧ g.declares x k n = true) ∧
    (g.appearsIn c k n).Pairwise (fun x y => g.distance c x ≤ g.distance c y) ∧
    ∀ p, g.provenance? c k n = some p → p.source ≠ c → p.source ∈ g.appearsIn c k n := by
  refine ⟨(g.nodes.nodup_walk _ _).filter _, fun x => mem_appearsIn,
    (pairwise_ancestry g c).filter _, fun p hp hne => ?_⟩
  exact mem_appearsIn.2 ⟨hne, of_provenance? hp⟩

/-- A class that extends one and includes a mixin; both declare a name, and so does the class that the
mixin implements. -/
def doubled : List ClassRecord :=
  [{ ClassRecord.new "a.C" .ordinary with superClass := some "b.B", mixins := ["m.M"] },
    { ClassRecord.new "b.B" .ordinary with members := .ofList [("f", {})] },
    { ClassRecord.new "i.I" .interface with members := .ofList [("f", {})] },
    { ClassRecord.new "m.M" .mixin with interfaces := ["i.I"], members := .ofList [("f", {})] }]

theorem appearsIn_breadthFirst_doubled :
    (build doubled).provenance? "a.C" .member "f" = some (.mixin "m.M") ∧
      (build doubled).appearsIn "a.C" .member "f" = ["b.B", "m.M", "i.I"] ∧
      "m.M" ∈ (build doubled).appearsIn "a.C" .member "f" := by
  obtain ⟨hfrom, hlisted⟩ :
      (build doubled).provenance? "a.C" .member "f" = some (.mixin "m.M") ∧
      (build doubled).appearsIn "a.C" .member "f" = ["b.B", "m.M", "i.I"] := by
    decide +kernel
  obtain ⟨-, -, -, hcovers⟩ := appearsIn_breadthFirst (build doubled) "a.C" .member "f"
  exact ⟨hfrom, hlisted, hcovers (.mixin "m.M") hfrom (by decide)⟩

end Hierarchy

end ClassForge
