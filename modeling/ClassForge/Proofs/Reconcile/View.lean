import ClassForge.Proofs.Reconcile.Entries

/-!
# What reconciling derives

The derived view of a record lists its entries with the fields that reconciling sets. Apart from its
types, what the source of a class says is never changed by reconciling, and the derived view follows
from what the sources of the class and of those above it say.
-/

namespace ClassForge

/-! ## The derived view -/

/-- The fields of an entry that reconciling sets. -/
structure Origin where
  mixin : Option String
  fromInterface : Option String
  isAbstract : Bool
  overriddenFrom : Option String
  appearsIn : List String
deriving DecidableEq

def Member.origin (a : Member) : Origin :=
  { mixin := a.mixin, fromInterface := a.fromInterface, isAbstract := a.isAbstract,
    overriddenFrom := a.overriddenFrom, appearsIn := a.appearsIn }

def Property.origin (p : Property) : Origin :=
  { mixin := p.mixin, fromInterface := none, isAbstract := false,
    overriddenFrom := p.overriddenFrom, appearsIn := p.appearsIn }

def ClassRecord.view (r : ClassRecord) : Category → Table Origin
  | .member => r.members.map fun _ a => a.origin
  | .static => r.statics.map fun _ a => a.origin
  | .property => r.properties.map fun _ p => p.origin

namespace Origin

def settled (g : Hierarchy) (c : String) (k : Category) (n : String) (o : Origin) : Origin :=
  { o with overriddenFrom := some c, appearsIn := g.appearsIn c k n }

def merged (g : Hierarchy) (c : String) (k : Category) (n mixin : String) (o : Origin) : Origin :=
  { o with overriddenFrom := none, mixin := some mixin, appearsIn := g.appearsIn c k n }

def placeholder (g : Hierarchy) (c n interface : String) : Origin :=
  { mixin := none, fromInterface := some interface, isAbstract := true, overriddenFrom := none,
    appearsIn := g.appearsIn c .member n }

end Origin

/-! ## What the source says -/

/-- A member without derived fields and types. -/
def Member.bare (a : Member) : Member :=
  ClassRecord.mapMemberTypes (fun _ => "") { a with overriddenFrom := none, appearsIn := [] }

/-- A property without derived fields and check. -/
def Property.bare (p : Property) : Property :=
  { p with check := p.check.map fun _ => "", overriddenFrom := none, appearsIn := [] }

namespace ClassRecord

/-- What the source of a class says, with all types left blank. -/
def bare (r : ClassRecord) : ClassRecord := r.withoutDerived.mapTypes fun _ => ""

theorem get?_bare_members (r : ClassRecord) (n : String) :
    r.bare.members.get? n = (r.ownMember? n).map Member.bare := r.get?_prepared_members _ n

theorem get?_bare_statics (r : ClassRecord) (n : String) :
    r.bare.statics.get? n = (r.ownStatic? n).map Member.bare := r.get?_prepared_statics _ n

theorem get?_bare_properties (r : ClassRecord) (n : String) :
    r.bare.properties.get? n = (r.ownProperty? n).map Property.bare :=
  r.get?_prepared_properties _ n

theorem ownNames_congr {α : Type} {isOwn : α → Bool} (bare : α → α) {s t : Table α}
    (hbare : ∀ a, isOwn (bare a) = isOwn a)
    (h : ∀ n, s.get? n = ((t.get? n).filter isOwn).map bare) :
    HierarchyNode.ownNames isOwn s = HierarchyNode.ownNames isOwn t := by
  apply Table.ext_get?
  intro n
  rw [HierarchyNode.ownNames, HierarchyNode.ownNames, Table.get?_map, Table.get?_map,
    Table.get?_filter, Table.get?_filter, h]
  cases t.get? n with
  | none => rfl
  | some a => by_cases ha : isOwn a = true <;> simp [Option.filter_some, ha, hbare]

theorem ofRecord_bare (r : ClassRecord) :
    HierarchyNode.ofRecord r.bare = HierarchyNode.ofRecord r := by
  have hm : HierarchyNode.ownNames Member.isOwn r.bare.members =
      HierarchyNode.ownNames Member.isOwn r.members :=
    ownNames_congr Member.bare (fun _ => rfl) r.get?_bare_members
  have hs : HierarchyNode.ownNames Member.isOwn r.bare.statics =
      HierarchyNode.ownNames Member.isOwn r.statics :=
    ownNames_congr Member.bare (fun _ => rfl) r.get?_bare_statics
  have hp : HierarchyNode.ownNames Property.isOwn r.bare.properties =
      HierarchyNode.ownNames Property.isOwn r.properties :=
    ownNames_congr Property.bare (fun _ => rfl) r.get?_bare_properties
  rw [HierarchyNode.ofRecord, HierarchyNode.ofRecord, hm, hs, hp]
  rfl

theorem classname_bare (r : ClassRecord) : r.bare.classname = r.classname := rfl

theorem map_ofRecord_bare (o : Option ClassRecord) :
    o.map HierarchyNode.ofRecord = (o.map bare).map HierarchyNode.ofRecord := by
  cases o with
  | none => rfl
  | some r => simp [ofRecord_bare]

variable {g g' : Hierarchy} {record? record'? : String → Option ClassRecord} {r r' : ClassRecord}

theorem bare_settled (f : String → String) (c : String) (k : Category) (n : String) (a : Member) :
    (a.settled g f c k n).bare = a.bare := by
  simp [Member.bare, Member.settled, mapMemberTypes, Function.comp_def]

theorem mapMemberTypes_blank (f : String → String) (a : Member) :
    mapMemberTypes (fun _ => "") (mapMemberTypes f a) = mapMemberTypes (fun _ => "") a := by
  simp [mapMemberTypes, Function.comp_def]

theorem bare_reconcile (hg : g.Shows record?) (hr : record? r.classname = some r) :
    (r.reconcile g record?).bare = r.bare := by
  have hm : (r.reconcile g record?).bare.members = r.bare.members := by
    apply Table.ext_get?
    intro n
    rw [get?_bare_members, get?_bare_members, ownMember?_reconcile hg hr, Option.map_map]
    congr 1
    funext a
    exact bare_settled _ _ _ _ _
  have hs : (r.reconcile g record?).bare.statics = r.bare.statics := by
    apply Table.ext_get?
    intro n
    rw [get?_bare_statics, get?_bare_statics, ownStatic?_reconcile hg hr, Option.map_map]
    congr 1
    funext a
    exact bare_settled _ _ _ _ _
  have hp : (r.reconcile g record?).bare.properties = r.bare.properties := by
    apply Table.ext_get?
    intro n
    rw [get?_bare_properties, get?_bare_properties, ownProperty?_reconcile hg hr, Option.map_map]
    congr 1
    funext p
    simp [Property.bare, Property.settled, Function.comp_def]
  obtain ⟨members, properties, h⟩ := r.reconcile_eq g record?
  have hevents : (r.events.map fun _ e =>
      ({ e with typeText := e.typeText.map (r.completer record?) } : EventInfo)).map
        (fun _ e => { e with typeText := e.typeText.map fun _ => "" }) =
      r.events.map fun _ e => { e with typeText := e.typeText.map fun _ => "" } := by
    apply Table.ext_get?
    intro n
    simp [Option.map_map, Function.comp_def]
  rw [h] at hm hs hp ⊢
  simp only [bare, mapTypes, withoutDerived] at hm hs hp ⊢
  rw [hm, hs, hp, hevents]
  simp [Option.map_map, Function.comp_def, mapMemberTypes_blank]

/-! ## Declarations -/

def declared? (r : ClassRecord) (k : Category) (n : String) : Option Origin :=
  match k with
  | .member => (r.ownMember? n).map fun a => a.bare.origin
  | .static => (r.ownStatic? n).map fun a => a.bare.origin
  | .property => (r.ownProperty? n).map fun p => p.bare.origin

theorem isSome_declared? (r : ClassRecord) (k : Category) (n : String) :
    (r.declared? k n).isSome = (HierarchyNode.ofRecord r).declares k n := by
  cases k with
  | member => rw [declares_member, declared?, Option.isSome_map]
  | static => rw [declares_static, declared?, Option.isSome_map]
  | property => rw [declares_property, declared?, Option.isSome_map]

theorem declared?_eq_get?_bare (r : ClassRecord) (k : Category) (n : String) :
    r.declared? k n = (r.bare.view k).get? n := by
  cases k with
  | member => simp [declared?, view, get?_bare_members, Function.comp_def]
  | static => simp [declared?, view, get?_bare_statics, Function.comp_def]
  | property => simp [declared?, view, get?_bare_properties, Function.comp_def]

def firstDeclared? (record? : String → Option ClassRecord) (l : List String) (k : Category)
    (n : String) (change : String → Origin → Origin) : Option Origin :=
  l.findSome? fun x => ((record? x).bind (·.declared? k n)).map (change x)

theorem firstDeclared?_eq (hg : g.Shows record?) (l : List String) (k : Category) (n : String)
    (change : String → Origin → Origin) :
    firstDeclared? record? l k n change =
      (l.find? fun x => g.declares x k n).bind fun x =>
        ((record? x).bind (·.declared? k n)).map (change x) := by
  have h := findSome?_mixins_eq hg (fun m => (m.isSome_declared? k n).symm) l change
  simpa only [firstDeclared?, Option.map_bind, Function.comp_def] using h

theorem firstDeclared?_congr {l : List String} {k : Category} {n : String}
    {change change' : String → Origin → Origin}
    (h : ∀ x ∈ l, (record? x).map bare = (record'? x).map bare) (hchange : change = change') :
    firstDeclared? record? l k n change = firstDeclared? record'? l k n change' := by
  have hget : ∀ o : Option ClassRecord,
      o.bind (·.declared? k n) = (o.map bare).bind fun r => (r.view k).get? n := by
    intro o
    cases o with
    | none => rfl
    | some r => exact r.declared?_eq_get?_bare k n
  rw [firstDeclared?, firstDeclared?, hchange]
  induction l with
  | nil => rfl
  | cons x rest ih =>
    rw [List.findSome?_cons, List.findSome?_cons, hget, hget, h x List.mem_cons_self,
      ih fun y hy => h y (List.mem_cons_of_mem _ hy)]

/-! ## The view of a reconciled record -/

theorem get?_view_reconcile (hg : g.Shows record?) (hr : record? r.classname = some r)
    (k : Category) (n : String) :
    ((r.reconcile g record?).view k).get? n =
      ((r.declared? k n).map (Origin.settled g r.classname k n)).or
        ((if k = .static then none
          else firstDeclared? record? r.mixins k n (Origin.merged g r.classname k n)).or
          (if k = .member ∧ r.isAbstract ∧ g.provenance? r.classname k n = none then
            firstDeclared? record? (g.boundInterfaces r.classname) k n
              fun x _ => Origin.placeholder g r.classname n x
          else none)) := by
  cases k with
  | member =>
    rw [view, Table.get?_map, get?_reconcile_members hg hr, Option.map_or, Option.map_or,
      declared?, Option.map_map, Option.map_map, List.map_findSome?]
    simp only [firstDeclared?, Function.comp_def, Option.map_bind, Option.map_map, declared?,
      reduceCtorEq, if_false, true_and, Option.isNone_iff_eq_none, Bool.and_eq_true]
    congr 2
    split
    · rw [List.map_findSome?]
      simp only [Function.comp_def, Option.map_bind, Option.map_map]
      rfl
    · rfl
  | static =>
    rw [view, Table.get?_map, get?_reconcile_statics hg hr, declared?, Option.map_map,
      Option.map_map]
    simp only [if_true, reduceCtorEq, false_and, if_false, Option.or_none]
    rfl
  | property =>
    rw [view, Table.get?_map, get?_reconcile_properties hg hr, Option.map_or, declared?,
      Option.map_map, Option.map_map, List.map_findSome?]
    simp only [firstDeclared?, Function.comp_def, Option.map_bind, Option.map_map, declared?,
      reduceCtorEq, if_false, false_and, Option.or_none]
    rfl

theorem above_mixin (hg : g.Shows record?) (hr : record? r.classname = some r) {x : String}
    (hx : x ∈ r.mixins) : g.Above r.classname x :=
  Hierarchy.above_of_leads (hg.node hr) (HierarchyNode.mem_targets.2 (.inr (.inl hx)))

theorem agreeAbove_of_bare (hg : g.Shows record?) (hg' : g'.Shows record'?) {c : String}
    (h : ∀ x, g.Above c x → (record? x).map bare = (record'? x).map bare) : g.AgreeAbove g' c := by
  intro x hx
  rw [hg, hg', map_ofRecord_bare, map_ofRecord_bare (record'? x), h x hx]

theorem shows_of_bare (hg : g.Shows record?)
    (h : ∀ x, (record'? x).map bare = (record? x).map bare) : g.Shows record'? := by
  intro x
  rw [hg, map_ofRecord_bare, ← h, ← map_ofRecord_bare]

/-- The derived view of a class follows from what its source and the sources of the classes above it
say. -/
theorem view_reconcile_congr (hg : g.Shows record?) (hg' : g'.Shows record'?)
    (hr : record? r.classname = some r) (hr' : record'? r'.classname = some r')
    (hbare : r.bare = r'.bare)
    (h : ∀ x, g.Above r.classname x → (record? x).map bare = (record'? x).map bare) :
    (r.reconcile g record?).view = (r'.reconcile g' record'?).view := by
  have hname : r'.classname = r.classname := by rw [← classname_bare, ← hbare]; rfl
  have hmixins : r'.mixins = r.mixins := by
    rw [show r'.mixins = r'.bare.mixins from rfl, ← hbare]; rfl
  have habs : r'.isAbstract = r.isAbstract := by
    rw [show r'.isAbstract = r'.bare.isAbstract from rfl, ← hbare]; rfl
  have hagree := agreeAbove_of_bare hg hg' h
  funext k
  apply Table.ext_get?
  intro n
  have hsettled : Origin.settled g r.classname k n = Origin.settled g' r.classname k n := by
    funext o
    simp only [Origin.settled, hagree.appearsIn]
  have hmerged : Origin.merged g r.classname k n = Origin.merged g' r.classname k n := by
    funext x o
    simp only [Origin.merged, hagree.appearsIn]
  have hplaceholder : (fun x (_ : Origin) => Origin.placeholder g r.classname n x) =
      fun x _ => Origin.placeholder g' r.classname n x := by
    funext x o
    simp only [Origin.placeholder, hagree.appearsIn]
  have hmixed := firstDeclared?_congr (k := k) (n := n) (fun x hx => h x (above_mixin hg hr hx))
    hmerged
  have hbound := firstDeclared?_congr (k := k) (n := n)
    (fun x hx => h x (Hierarchy.above_of_mem_boundInterfaces hx)) hplaceholder
  rw [get?_view_reconcile hg hr, get?_view_reconcile hg' hr', hname, hmixins, habs,
    ← hagree.provenance?, ← hagree.boundInterfaces, declared?_eq_get?_bare, hbare,
    ← declared?_eq_get?_bare, hsettled, hmixed, hbound]

end ClassRecord

end ClassForge
