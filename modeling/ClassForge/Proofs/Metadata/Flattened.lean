import ClassForge.Proofs.Hierarchy.Climb
import ClassForge.Proofs.Metadata.WellFormed

/-!
# The flattened view

The flattened view of a class adds to its record what it inherits. Once all classes are reconciled,
the entries of that view say of every name what a search of the hierarchy says: where the class has
it from, or that it has it from nowhere.
-/

namespace ClassForge

variable {o : Origin}

/-- What an entry says of where its name comes from; a placeholder says nothing. -/
def Origin.provenance? (o : Origin) : Option Provenance :=
  if o.isAbstract then none
  else match o.mixin with
    | some x => some (.mixin x)
    | none => o.overriddenFrom.map .overriddenFrom

structure Origin.Agrees (found : Option Provenance) (entry : Option Origin) : Prop where
  overriddenFrom : ∀ x, found = some (.overriddenFrom x) ↔
    ∃ o, entry = some o ∧ o.isAbstract = false ∧ o.mixin = none ∧ o.overriddenFrom = some x
  mixin : ∀ x, found = some (.mixin x) ↔
    ∃ o, entry = some o ∧ o.isAbstract = false ∧ o.mixin = some x
  nowhere : found = none ↔
    ∀ o, entry = some o → o.isAbstract = true ∧ o.fromInterface.isSome = true

theorem Origin.provenance?_eq_overriddenFrom {x : String} :
    o.provenance? = some (.overriddenFrom x) ↔
      o.isAbstract = false ∧ o.mixin = none ∧ o.overriddenFrom = some x := by
  rw [provenance?]
  cases o.isAbstract <;> cases o.mixin <;> simp

theorem Origin.provenance?_eq_mixin {x : String} :
    o.provenance? = some (.mixin x) ↔ o.isAbstract = false ∧ o.mixin = some x := by
  rw [provenance?]
  cases o.isAbstract <;> cases o.mixin <;> simp

theorem Origin.isAbstract_of_provenance? {p : Provenance} (h : o.provenance? = some p) :
    o.isAbstract = false := by
  cases ha : o.isAbstract with
  | false => rfl
  | true =>
    rw [provenance?, if_pos ha] at h
    cases h

theorem Origin.agrees_of_some {p : Provenance} (h : o.provenance? = some p) :
    Agrees (some p) (some o) where
  overriddenFrom x := by
    simp [← h, provenance?_eq_overriddenFrom]
  mixin x := by
    simp [← h, provenance?_eq_mixin]
  nowhere := by
    simp [isAbstract_of_provenance? h]

theorem Origin.agrees_none {entry : Option Origin}
    (h : ∀ o, entry = some o → o.isAbstract = true ∧ o.fromInterface.isSome = true) :
    Agrees none entry where
  overriddenFrom x := by
    constructor
    · intro hfound
      cases hfound
    · rintro ⟨o, ho, hconcrete, _⟩
      rw [(h o ho).1] at hconcrete
      cases hconcrete
  mixin x := by
    constructor
    · intro hfound
      cases hfound
    · rintro ⟨o, ho, hconcrete, _⟩
      rw [(h o ho).1] at hconcrete
      cases hconcrete
  nowhere := ⟨fun _ => h, fun _ => rfl⟩

namespace Metadata

variable {m m' : Metadata} {g : Hierarchy} {c n : String} {k : Category} {r : ClassRecord}

/-! ## What is inherited -/

def inherited? (m : Metadata) (g : Hierarchy) (c : String) (k : Category) (n : String) :
    Nat → Option String → Option Origin
  | 0, _ => none
  | _ + 1, none => none
  | steps + 1, some name =>
    match m.record? name with
    | none => none
    | some parent =>
      ((((parent.view k).get? n).filter fun o => !o.isAbstract).map fun o =>
        { o with appearsIn := g.appearsIn c k n }).or (m.inherited? g c k n steps parent.superClass)

/-- Going through a table and adding what is new and no placeholder, seen through what is derived
for its entries. -/
theorem get?_foldl_inherit {α : Type} (origin : α → Origin) (skip : α → Bool)
    (change : String → α → α) {places : List String} (hskip : ∀ a, skip a = (origin a).isAbstract)
    (hchange : ∀ a, origin (change n a) = { origin a with appearsIn := places }) (t other : Table α) :
    ((other.entries.foldl (fun t (name, a) =>
      if skip a || t.contains name then t else t.insert name (change name a)) t).get? n).map origin =
      ((t.get? n).map origin).or
        ((((other.get? n).map origin).filter fun o => !o.isAbstract).map fun o =>
          { o with appearsIn := places }) := by
  rw [Table.get?_foldl_fill fun name a => if skip a then none else some (change name a),
    Option.map_or]
  · congr 1
    rcases other.get? n with _ | a
    · rfl
    · cases hs : skip a with
      | false => simp [Option.filter_some, hs, ← hskip, hchange]
      | true => simp [Option.filter_some, hs, ← hskip]
  · rintro t ⟨name, a⟩
    rw [Table.fill]
    cases hs : skip a <;> cases ht : t.contains name <;> simp [hs, ht]

theorem get?_view_inherit (hk : k ≠ .static) (steps : Nat) (ancestor : Option String)
    (r : ClassRecord) :
    ((m.inherit g c steps ancestor r).view k).get? n =
      ((r.view k).get? n).or (m.inherited? g c k n steps ancestor) := by
  induction steps generalizing ancestor r with
  | zero => simp [inherit, inherited?]
  | succ steps ih =>
    rcases ancestor with _ | name
    · simp [inherit, inherited?]
    rw [inherit, inherited?]
    rcases m.record? name with _ | parent
    · simp
    dsimp only
    rw [ih, ← Option.or_assoc]
    congr 1
    cases k with
    | member =>
      simp only [ClassRecord.view, Table.get?_map]
      exact get?_foldl_inherit Member.origin Member.isAbstract
        (fun name a => { a with appearsIn := g.appearsIn c .member name })
        (fun _ => rfl) (fun _ => rfl) r.members parent.members
    | static => exact absurd rfl hk
    | property =>
      simp only [ClassRecord.view, Table.get?_map]
      exact get?_foldl_inherit Property.origin (fun _ => false)
        (fun name a => { a with appearsIn := g.appearsIn c .property name })
        (fun _ => rfl) (fun _ => rfl) r.properties parent.properties

/-! ## Entries of reconciled classes -/

theorem WellFormed.of_declared? (hm : m.WellFormed) (hr : m.record? c = some r) (hk : k ≠ .static)
    (ho : r.declared? k n = some o) : o.isAbstract = false ∧ o.mixin = none := by
  cases k with
  | member =>
    obtain ⟨a, ha, rfl⟩ := Option.map_eq_some_iff.1 ho
    have hbare : r.bare.members.get? n = some a.bare := by
      rw [ClassRecord.get?_bare_members, ha]
      rfl
    have hown : a.isOwn = true := (Option.filter_eq_some_iff.1 ha).2
    rw [Member.isOwn, Bool.and_eq_true] at hown
    exact ⟨hm.concrete c r hr n a.bare hbare, Option.isNone_iff_eq_none.1 hown.1⟩
  | static => exact absurd rfl hk
  | property =>
    obtain ⟨p, hp, rfl⟩ := Option.map_eq_some_iff.1 ho
    have hown : p.isOwn = true := (Option.filter_eq_some_iff.1 hp).2
    exact ⟨rfl, Option.isNone_iff_eq_none.1 hown⟩

theorem WellFormed.of_declares (hm : m.WellFormed) (hk : k ≠ .static)
    (h : m.hierarchy.declares c k n = true) :
    ∃ o, (m.record? c).bind (·.declared? k n) = some o ∧ o.isAbstract = false := by
  rw [hm.keyed.shows.declares, Option.any_eq_true] at h
  obtain ⟨r, hr, h⟩ := h
  rw [← r.isSome_declared?, Option.isSome_iff_exists] at h
  obtain ⟨o, ho⟩ := h
  exact ⟨o, by rw [hr, Option.bind_some, ho], (hm.of_declared? hr hk ho).1⟩

/-- An entry of an up-to-date class says where the class, its superclasses aside, has the name from.
If it has it from nowhere, there is no entry but a placeholder for a name that is not inherited
either. -/
theorem WellFormed.entry_cases (hm : m.WellFormed) (hup : m.UpToDate c) (hr : m.record? c = some r)
    (hk : k ≠ .static) (n : String) :
    (∃ o p, (r.view k).get? n = some o ∧ o.provenance? = some p ∧
      m.hierarchy.ownProvenance? c k n = some p) ∨
    (m.hierarchy.ownProvenance? c k n = none ∧ ∀ o, (r.view k).get? n = some o →
      o.isAbstract = true ∧ o.fromInterface.isSome = true ∧
        m.hierarchy.provenance? c k n = none) := by
  obtain rfl := hm.keyed c r hr
  have hg := hm.keyed.shows
  have hdeclares := r.isSome_declared? k n
  rw [hup r hr, ClassRecord.get?_view_reconcile hg hr, ClassRecord.firstDeclared?_eq hg,
    if_neg hk, Hierarchy.ownProvenance?, hg.node hr, Option.bind_some, ← hdeclares]
  rcases ho : r.declared? k n with _ | o
  · simp only [Option.isSome_none, Bool.false_eq_true, if_false, Option.map_none, Option.none_or]
    have hmixins : (HierarchyNode.ofRecord r).mixins = r.mixins := rfl
    rw [hmixins]
    rcases hx : r.mixins.find? fun x => m.hierarchy.declares x k n with _ | x
    · -- only a placeholder is left, and that is made for names that are nowhere to be found
      refine .inr ⟨rfl, ?_⟩
      intro o ho
      rw [Option.bind_none, Option.none_or] at ho
      split at ho
      · rename_i hcond
        obtain ⟨x, _, hx⟩ := List.exists_of_findSome?_eq_some ho
        obtain ⟨_, _, rfl⟩ := Option.map_eq_some_iff.1 hx
        exact ⟨rfl, rfl, hcond.2.2⟩
      · cases ho
    · obtain ⟨o, ho, hconcrete⟩ := hm.of_declares hk (by simpa using List.find?_some hx)
      refine .inl ⟨o.merged m.hierarchy r.classname k n x, .mixin x, ?_, ?_, rfl⟩
      · rw [Option.bind_some, ho]
        rfl
      · exact Origin.provenance?_eq_mixin.2 ⟨hconcrete, rfl⟩
  · obtain ⟨hconcrete, hmixin⟩ := hm.of_declared? hr hk ho
    refine .inl ⟨o.settled m.hierarchy r.classname k n, .overriddenFrom r.classname, ?_, ?_, ?_⟩
    · simp
    · exact Origin.provenance?_eq_overriddenFrom.2 ⟨hconcrete, hmixin, rfl⟩
    · simp

/-! ## The flattened view -/

theorem WellFormed.inherited?_cases (hm : m.WellFormed) (hup : ∀ c, m.UpToDate c)
    (hk : k ≠ .static) (g : Hierarchy) (c n : String) (steps : Nat) (ancestor : Option String) :
    (∃ o p, m.inherited? g c k n steps ancestor = some o ∧ o.provenance? = some p ∧
      m.hierarchy.climb k n steps ancestor = some p) ∨
    (m.inherited? g c k n steps ancestor = none ∧ m.hierarchy.climb k n steps ancestor = none) := by
  induction steps generalizing ancestor with
  | zero => exact .inr ⟨rfl, rfl⟩
  | succ steps ih =>
    rcases ancestor with _ | name
    · exact .inr ⟨rfl, rfl⟩
    rw [inherited?, Hierarchy.climb, Hierarchy.superClass?, hm.keyed.shows]
    rcases hr : m.record? name with _ | parent
    · refine .inr ⟨rfl, ?_⟩
      simp [Hierarchy.ownProvenance?, hm.keyed.shows name, hr]
    dsimp only [Option.map_some, Option.bind_some]
    rcases hm.entry_cases (hup name) hr hk n with ⟨o, p, ho, hp, hown⟩ | ⟨hown, hplaceholder⟩
    · have hconcrete := Origin.isAbstract_of_provenance? hp
      refine .inl ⟨{ o with appearsIn := g.appearsIn c k n }, p, ?_, hp, ?_⟩
      · simp [ho, Option.filter_some, hconcrete]
      · rw [hown]
        rfl
    · have hskip : ((parent.view k).get? n).filter (fun o => !o.isAbstract) = none := by
        rcases ho : (parent.view k).get? n with _ | o
        · rfl
        · simp [Option.filter_some, (hplaceholder o ho).1]
      rw [hskip, hown]
      exact ih parent.superClass

theorem Keyed.unseen_le (hm : m.Keyed) (c : String) :
    m.hierarchy.nodes.unseen [c] ≤ m.records.size := by
  have hnodes : m.hierarchy.nodes = m.records.map fun _ r => HierarchyNode.ofRecord r := by
    apply Table.ext_get?
    intro x
    rw [hm.shows, Table.get?_map]
    rfl
  calc m.hierarchy.nodes.unseen [c]
      ≤ m.hierarchy.nodes.unseen [] := Table.unseen_cons_le _ c []
    _ = m.records.size := by
      rw [Table.unseen_nil, hnodes]
      exact List.length_map _

theorem WellFormed.agrees_resolved (hm : m.WellFormed) (hup : ∀ c, m.UpToDate c)
    (hr : m.record? c = some r) :
    ∃ flat, m.resolved c = .ok flat ∧ ∀ k n, k ≠ .static →
      Origin.Agrees (m.hierarchy.provenance? c k n) ((flat.view k).get? n) := by
  refine ⟨m.inherit m.hierarchy c m.records.size r.superClass r, by rw [resolved, hr], ?_⟩
  intro k n hk
  rw [get?_view_inherit hk]
  rcases hm.entry_cases (hup c) hr hk n with ⟨o, p, ho, hp, hown⟩ | ⟨hown, hplaceholder⟩
  · rw [Hierarchy.provenance?_eq_climb (hm.keyed.unseen_le c), hown, ho]
    exact Origin.agrees_of_some hp
  rcases ho : (r.view k).get? n with _ | o
  · have hsuper : m.hierarchy.superClass? c = r.superClass := by
      rw [Hierarchy.superClass?, hm.keyed.shows.node hr]
      rfl
    rw [Hierarchy.provenance?_eq_climb (hm.keyed.unseen_le c), hown, hsuper, Option.none_or,
      Option.none_or]
    rcases hm.inherited?_cases hup hk m.hierarchy c n m.records.size r.superClass with
      ⟨o, p, ho, hp, hclimb⟩ | ⟨hnone, hclimb⟩
    · rw [ho, hclimb]
      exact Origin.agrees_of_some hp
    · rw [hnone, hclimb]
      refine Origin.agrees_none ?_
      intro o ho
      cases ho
  · -- a placeholder hides what is inherited, but then there is nothing to hide
    obtain ⟨habstract, hinterface, hnone⟩ := hplaceholder o ho
    rw [hnone]
    refine Origin.agrees_none ?_
    rintro _ ⟨⟩
    exact ⟨habstract, hinterface⟩

def circleSources : FileTree :=
  { nodes := Table.ofList [("/A.js", .file "qx.Class.define(\"a.A\",\x7bextend:a.B\x7d);" 1),
      ("/B.js", .file "qx.Class.define(\"a.B\",\x7bextend:a.A,include:b.M\x7d);" 1),
      ("/M.js", .file "qx.Mixin.define(\"b.M\",\x7bmembers:\x7bf()\x7b\x7d\x7d\x7d);" 1)] }

def circleAdded : List Edit :=
  [.addFiles circleSources [(none, ⟨"/A.js"⟩), (none, ⟨"/B.js"⟩), (none, ⟨"/M.js"⟩)] false]

end Metadata

end ClassForge
