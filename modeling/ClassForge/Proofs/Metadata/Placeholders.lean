import ClassForge.Proofs.Metadata.Idempotence
import ClassForge.Proofs.Metadata.WellFormed

/-!
# Placeholders

An abstract class need not have the members of the interfaces that bind it: reconciling gives it a
placeholder for every one that it has from nowhere. Once all classes are reconciled, each member of
a bound interface is accounted for, and each placeholder names the first interface that asks for it.
-/

namespace ClassForge

open Relation (ReflTransGen)

theorem ClassRecord.fromInterface_of_declared? {r : ClassRecord} {n : String} {o : Origin}
    (h : r.declared? .member n = some o) : o.fromInterface = none := by
  obtain ⟨a, ha, rfl⟩ := Option.map_eq_some_iff.1 h
  have hown : a.isOwn = true := (Option.filter_eq_some_iff.1 ha).2
  rw [Member.isOwn, Bool.and_eq_true] at hown
  exact Option.isNone_iff_eq_none.1 hown.2

namespace Metadata

variable {m m' : Metadata} {c i n x : String} {r : ClassRecord}

/-! ## Bound interfaces -/

def Declares (m : Metadata) (x n : String) : Prop :=
  ∃ r, m.record? x = some r ∧ (r.ownMember? n).isSome = true

def Implements (m : Metadata) (x y : String) : Prop := ∃ r, m.record? x = some r ∧ y ∈ r.interfaces

def Includes (m : Metadata) (x y : String) : Prop := ∃ r, m.record? x = some r ∧ y ∈ r.mixins

def Binds (m : Metadata) (c i : String) : Prop :=
  ∃ s, (m.Implements c s ∨ ∃ x, m.Includes c x ∧ m.Implements x s) ∧ ReflTransGen m.Implements s i

theorem Keyed.declares_iff (hm : m.Keyed) :
    m.hierarchy.declares x .member n = true ↔ m.Declares x n := by
  rw [hm.shows.declares, Option.any_eq_true]
  simp only [ClassRecord.declares_member]
  rfl

theorem Keyed.leads_interfaces (hm : m.Keyed) :
    m.hierarchy.nodes.Leads (·.interfaces) = m.Implements := by
  funext x y
  simp only [Table.Leads, hm.shows x, Option.map_eq_some_iff, Implements]
  grind [HierarchyNode.ofRecord]

theorem Keyed.mem_boundInterfaces (hm : m.Keyed) :
    i ∈ m.hierarchy.boundInterfaces c ↔ m.Binds c i := by
  have hinterfaces (x s : String) :
      s ∈ ((m.hierarchy.nodes.get? x).map (·.interfaces)).getD [] ↔ m.Implements x s := by
    rw [hm.shows, Implements]
    cases m.record? x <;> simp [HierarchyNode.ofRecord]
  rw [Hierarchy.boundInterfaces, hm.shows]
  cases hr : m.record? c with
  | none => simp [Binds, Implements, Includes, hr]
  | some r =>
    dsimp only [Option.map_some]
    rw [Table.mem_walk_nil_iff, Table.Reach, hm.leads_interfaces, Binds]
    simp only [List.mem_append, List.mem_flatMap, hinterfaces]
    simp [Implements, Includes, hr, HierarchyNode.ofRecord]

/-! ## Accounted members -/

def FirstDeclares (m : Metadata) (n : String) (l : List String) (i : String) : Prop :=
  ∃ before after, l = before ++ i :: after ∧ m.Declares i n ∧ ∀ x ∈ before, ¬ m.Declares x n

/-- The members of the interfaces that bind a class are accounted for in its record. -/
structure Accounted (m : Metadata) (c : String) (r : ClassRecord) : Prop where
  covered : r.isAbstract = true → ∀ i n, m.Binds c i → m.Declares i n →
    r.members.contains n = true ∨ (m.hierarchy.provenance? c .member n).isSome = true
  placeholder : ∀ n a i, r.members.get? n = some a → a.fromInterface = some i →
    a.isAbstract = true ∧ m.hierarchy.provenance? c .member n = none ∧
      m.FirstDeclares n (m.hierarchy.boundInterfaces c) i
  concrete : r.isAbstract = false → ∀ n a, r.members.get? n = some a → a.fromInterface = none

theorem Keyed.firstDeclares (hm : m.Keyed) {l : List String}
    (h : l.find? (fun x => m.hierarchy.declares x .member n) = some i) :
    m.FirstDeclares n l i := by
  obtain ⟨hi, before, after, hl, hbefore⟩ := List.find?_eq_some_iff_append.1 h
  refine ⟨before, after, hl, hm.declares_iff.1 hi, fun x hx hdeclares => ?_⟩
  have hnot := hbefore x hx
  rw [hm.declares_iff.2 hdeclares] at hnot
  cases hnot

theorem Keyed.firstDeclared?_const (hm : m.Keyed) (l : List String) (n : String)
    (f : String → Origin) :
    ClassRecord.firstDeclared? m.record? l .member n (fun x _ => f x) =
      (l.find? fun x => m.hierarchy.declares x .member n).map f := by
  rw [ClassRecord.firstDeclared?_eq hm.shows]
  cases hx : l.find? fun x => m.hierarchy.declares x .member n with
  | none => rfl
  | some x =>
    obtain ⟨_, _, _, ⟨s, hs, hdeclared⟩, _⟩ := hm.firstDeclares hx
    obtain ⟨o, ho⟩ : ∃ o, s.declared? .member n = some o := by
      rw [← Option.isSome_iff_exists, s.isSome_declared?, ClassRecord.declares_member, hdeclared]
    simp [hs, ho]

section

variable (hm : m.Keyed) (hup : m.UpToDate c) (hr : m.record? c = some r)

include hm hup hr

theorem Keyed.origin_member (n : String) :
    (r.members.get? n).map Member.origin =
      ((r.declared? .member n).map (Origin.settled m.hierarchy c .member n)).or
        ((ClassRecord.firstDeclared? m.record? r.mixins .member n
            (Origin.merged m.hierarchy c .member n)).or
          (if r.isAbstract ∧ m.hierarchy.provenance? c .member n = none then
            ((m.hierarchy.boundInterfaces c).find? fun x => m.hierarchy.declares x .member n).map
              (Origin.placeholder m.hierarchy c n)
          else none)) := by
  obtain rfl := hm c r hr
  have hview : (r.members.get? n).map Member.origin = (r.view .member).get? n := by
    rw [ClassRecord.view, Table.get?_map]
  rw [hview, hup r hr, ClassRecord.get?_view_reconcile hm.shows hr, ← hm.firstDeclared?_const]
  simp

theorem Keyed.of_fromInterface {a : Member} (ha : r.members.get? n = some a)
    (hi : a.fromInterface = some i) :
    r.isAbstract = true ∧ a.isAbstract = true ∧ m.hierarchy.provenance? c .member n = none ∧
      m.FirstDeclares n (m.hierarchy.boundInterfaces c) i := by
  have hentry := hm.origin_member hup hr n
  rw [ha, Option.map_some] at hentry
  -- what some body declares stands for itself, so neither the class nor a mixin gives the entry
  have hnot {s : ClassRecord} {o : Origin} (ho : s.declared? .member n = some o)
      (hfrom : o.fromInterface = a.fromInterface) : False := by
    rw [ClassRecord.fromInterface_of_declared? ho, hi] at hfrom
    cases hfrom
  rcases Option.or_eq_some_iff.1 hentry.symm with hown | ⟨_, hrest⟩
  · obtain ⟨o, ho, heq⟩ := Option.map_eq_some_iff.1 hown
    exact (hnot ho (congrArg Origin.fromInterface heq)).elim
  rcases Option.or_eq_some_iff.1 hrest with hmixin | ⟨_, hplaceholder⟩
  · obtain ⟨x, _, hx⟩ := List.exists_of_findSome?_eq_some hmixin
    obtain ⟨o, ho, heq⟩ := Option.map_eq_some_iff.1 hx
    obtain ⟨s, _, ho⟩ := Option.bind_eq_some_iff.1 ho
    exact (hnot ho (congrArg Origin.fromInterface heq)).elim
  · split at hplaceholder
    · next hcond =>
      obtain ⟨x, hfind, heq⟩ := Option.map_eq_some_iff.1 hplaceholder
      have hx : some x = some i := (congrArg Origin.fromInterface heq).trans hi
      cases hx
      exact ⟨hcond.1, (congrArg Origin.isAbstract heq).symm, hcond.2, hm.firstDeclares hfind⟩
    · cases hplaceholder

theorem Keyed.contains_of_binds (habstract : r.isAbstract = true) (hbinds : m.Binds c i)
    (hdeclares : m.Declares i n) (hnowhere : m.hierarchy.provenance? c .member n = none) :
    r.members.contains n = true := by
  have hfound : ((m.hierarchy.boundInterfaces c).find?
      fun x => m.hierarchy.declares x .member n).isSome = true := by
    rw [List.find?_isSome]
    exact ⟨i, hm.mem_boundInterfaces.2 hbinds, hm.declares_iff.2 hdeclares⟩
  have hentry := congrArg Option.isSome (hm.origin_member hup hr n)
  rw [if_pos ⟨habstract, hnowhere⟩] at hentry
  simp only [Option.isSome_or, Option.isSome_map, hfound, Bool.or_true] at hentry
  exact Table.contains_iff.2 (Option.isSome_iff_exists.1 hentry)

theorem Keyed.accounted : m.Accounted c r where
  covered habstract i n hbinds hdeclares := by
    cases hfound : m.hierarchy.provenance? c .member n with
    | some p => exact .inr rfl
    | none => exact .inl (hm.contains_of_binds hup hr habstract hbinds hdeclares hfound)
  placeholder n a i ha hi := (hm.of_fromInterface hup hr ha hi).2
  concrete hconcrete n a ha := by
    by_contra hsome
    obtain ⟨i, hi⟩ := Option.ne_none_iff_exists'.1 hsome
    rw [(hm.of_fromInterface hup hr ha hi).1] at hconcrete
    cases hconcrete

end

/-! ## Reconciled metadata -/

/-- An abstract class that implements an interface, which extends another, and includes a mixin with
an interface of its own. -/
def contractSources : FileTree :=
  { nodes := Table.ofList [
      ("/A.js", .file
        "qx.Class.define(\"a.A\",\x7btype:\"abstract\",implement:i.I,include:b.M\x7d);" 1),
      ("/I.js", .file "qx.Interface.define(\"i.I\",\x7bextend:i.J,members:\x7bf()\x7b\x7d\x7d\x7d);" 1),
      ("/J.js", .file "qx.Interface.define(\"i.J\",\x7bmembers:\x7bf()\x7b\x7d,g()\x7b\x7d\x7d\x7d);" 1),
      ("/K.js", .file "qx.Interface.define(\"i.K\",\x7bmembers:\x7bh()\x7b\x7d,k()\x7b\x7d\x7d\x7d);" 1),
      ("/M.js", .file
        "qx.Mixin.define(\"b.M\",\x7bimplement:i.K,members:\x7bh()\x7b\x7d\x7d\x7d);" 1)] }

def contractClasses : Metadata :=
  operated ⟨"/"⟩ [.edit (.addFiles contractSources
    (["/A.js", "/I.js", "/J.js", "/K.js", "/M.js"].map fun p => (none, ⟨p⟩)) false)]

end Metadata

end ClassForge
