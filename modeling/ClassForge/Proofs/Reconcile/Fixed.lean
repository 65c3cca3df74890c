import ClassForge.Proofs.Reconcile.Entries
import Mathlib.Tactic.MkIffOfInductiveProp
import Mathlib.Tactic.Tauto

/-!
# Records that reconciling leaves alone

An entry that a class does not declare is taken from a mixin or an interface, with the types it has
there at that time. A reconciled record stays as it is exactly if completing the declared types
again changes none, and every other entry would be taken again with the types it has.
-/

namespace ClassForge

def Member.source? (a : Member) : Option String := a.mixin.or a.fromInterface

theorem Member.isOwn_iff (a : Member) : a.isOwn = true ↔ a.source? = none := by
  simp [isOwn, source?]

def Member.types (a : Member) : List String :=
  a.params.filterMap (·.typeText) ++ (a.returns.bind (·.typeText)).toList

theorem Member.mapMemberTypes_eq_self_iff {f : String → String} {a : Member} :
    ClassRecord.mapMemberTypes f a = a ↔ ∀ ty ∈ a.types, f ty = ty := by
  have hparams : (a.params.map fun p => { p with typeText := p.typeText.map f }) = a.params ↔
      ∀ ty ∈ a.params.filterMap (·.typeText), f ty = ty := by
    induction a.params with
    | nil => simp
    | cons p rest ih =>
      rcases p with ⟨name, _ | ty, opt, d, desc⟩
      · simpa using ih
      · simpa using fun _ => ih
  have hreturns : (a.returns.map fun r => { r with typeText := r.typeText.map f }) = a.returns ↔
      ∀ ty ∈ (a.returns.bind (·.typeText)).toList, f ty = ty := by
    rcases a.returns with _ | ⟨_ | ty, desc⟩ <;> simp
  have hfields : ClassRecord.mapMemberTypes f a = a ↔
      (a.params.map fun p => { p with typeText := p.typeText.map f }) = a.params ∧
      (a.returns.map fun r => { r with typeText := r.typeText.map f }) = a.returns := by
    constructor
    · intro h
      exact ⟨congrArg Member.params h, congrArg Member.returns h⟩
    · rintro ⟨hp, hr⟩
      rw [ClassRecord.mapMemberTypes, hp, hr]
  rw [hfields, hparams, hreturns, Member.types]
  simp only [List.mem_append, or_imp, forall_and]
/-- Whom a class takes an entry from that it does not declare. -/
inductive Lender where
  | mixin (name : String)
  | interface (name : String)

def Lender.name : Lender → String
  | .mixin x => x
  | .interface x => x

def Member.lent (g : Hierarchy) (c n : String) : Lender → Member → Member
  | .mixin x, a => a.merged g c n x
  | .interface x, a => a.placeholder g c n x

theorem Member.source?_lent (g : Hierarchy) (c n : String) (l : Lender) {a : Member} :
    (a.lent g c n l).source? = some l.name := by
  cases l <;> rfl

theorem Member.lent_settled (g g' : Hierarchy) (f : String → String) (c s n n' : String)
    (k : Category) (l : Lender) (a : Member) :
    (a.settled g' f s k n').lent g c n l = ClassRecord.mapMemberTypes f (a.lent g c n l) := by
  cases l <;> rfl

namespace ClassRecord

variable {g : Hierarchy} {record? record'? : String → Option ClassRecord} {r : ClassRecord}
  {n : String}

def lender? (g : Hierarchy) (r : ClassRecord) (n : String) : Option Lender :=
  match r.mixins.find? fun x => g.declares x .member n with
  | some x => some (.mixin x)
  | none =>
    if r.isAbstract && (g.provenance? r.classname .member n).isNone then
      ((g.boundInterfaces r.classname).find? fun x => g.declares x .member n).map .interface
    else none

def propertyLender? (g : Hierarchy) (r : ClassRecord) (n : String) : Option String :=
  r.mixins.find? fun x => g.declares x .property n

theorem declares_of_lender? {l : Lender} (h : r.lender? g n = some l) :
    g.declares l.name .member n = true := by
  rw [lender?] at h
  rcases hx : r.mixins.find? fun x => g.declares x .member n with _ | x
  · simp only [hx] at h
    split at h
    · obtain ⟨x, hx, rfl⟩ := Option.map_eq_some_iff.1 h
      have := List.find?_some hx
      exact this
    · cases h
  · simp only [hx, Option.some.injEq] at h
    have := List.find?_some hx
    exact h ▸ this

theorem exists_ownMember? (hg : g.Shows record?) {x : String} (h : g.declares x .member n = true) :
    ∃ a, (record? x).bind (·.ownMember? n) = some a := by
  rw [hg.declares, Option.any_eq_true] at h
  obtain ⟨s, hs, hd⟩ := h
  rw [declares_member] at hd
  rw [hs]
  exact Option.isSome_iff_exists.1 hd

section

variable (hg : g.Shows record?) (hr : record? r.classname = some r)

include hg hr

theorem lender?_ne (ho : r.ownMember? n = none) {l : Lender} (hl : r.lender? g n = some l) :
    l.name ≠ r.classname := by
  intro hname
  obtain ⟨a, ha⟩ := exists_ownMember? hg (declares_of_lender? hl)
  rw [hname, hr, Option.bind_some, ho] at ha
  cases ha

theorem propertyLender?_ne (ho : r.ownProperty? n = none) {x : String}
    (hx : r.propertyLender? g n = some x) : x ≠ r.classname := by
  rintro rfl
  have hdecl := List.find?_some hx
  rw [hg.declares, hr, Option.any_some, declares_property, ho] at hdecl
  cases hdecl

theorem get?_reconcile_members_lent (h : r.ownMember? n = none) :
    (r.reconcile g record?).members.get? n = (r.lender? g n).bind fun l =>
      ((record? l.name).bind (·.ownMember? n)).map (Member.lent g r.classname n l) := by
  have htaken : ∀ (l : List String) (change : String → Member → Member),
      (l.findSome? fun x => (record? x).bind fun m => (m.ownMember? n).map (change x)) =
        (l.find? fun x => g.declares x .member n).bind fun x =>
          ((record? x).bind (·.ownMember? n)).map (change x) := by
    intro l change
    rw [findSome?_mixins_eq hg (fun m => declares_member)]
    simp only [Option.map_bind]
    rfl
  rw [get?_reconcile_members hg hr, h, htaken, lender?]
  rcases hx : r.mixins.find? fun x => g.declares x .member n with _ | x
  · simp only [Option.map_none, Option.none_or, Option.bind_none]
    split
    · rw [htaken, Option.bind_map]
      rfl
    · rfl
  · have hdecl := List.find?_some hx
    obtain ⟨a, ha⟩ := exists_ownMember? hg hdecl
    simp only [Option.map_none, Option.none_or, Option.bind_some, ha, Option.map_some,
      Option.some_or, Lender.name]
    rfl

theorem get?_reconcile_properties_lent (h : r.ownProperty? n = none) :
    (r.reconcile g record?).properties.get? n = (r.propertyLender? g n).bind fun x =>
      ((record? x).bind (·.ownProperty? n)).map (Property.merged g r.classname n x) := by
  rw [get?_reconcile_properties hg hr, h, findSome?_mixins_eq hg (fun m => declares_property)]
  simp only [Option.map_none, Option.none_or, Option.map_bind]
  rfl

end

theorem lender?_reconcile (r : ClassRecord) (n : String) :
    (r.reconcile g record?).lender? g n = r.lender? g n := by
  obtain ⟨members, properties, h⟩ := r.reconcile_eq g record?
  rw [h]
  rfl

theorem propertyLender?_reconcile (r : ClassRecord) (n : String) :
    (r.reconcile g record?).propertyLender? g n = r.propertyLender? g n := by
  obtain ⟨members, properties, h⟩ := r.reconcile_eq g record?
  rw [h]
  rfl

/-! ## Declared types -/

@[mk_iff fixed_iff_fields]
structure Fixed (f : String → String) (r : ClassRecord) : Prop where
  members : ∀ n a, r.ownMember? n = some a → mapMemberTypes f a = a
  statics : ∀ n a, r.ownStatic? n = some a → mapMemberTypes f a = a
  properties : ∀ n p, r.ownProperty? n = some p → p.check.map f = p.check
  construct : r.construct.map (mapMemberTypes f) = r.construct
  destruct : r.destruct.map (mapMemberTypes f) = r.destruct
  events : ∀ n e, r.events.get? n = some e → e.typeText.map f = e.typeText

def declaredTypes (r : ClassRecord) : List String :=
  (r.members.values.filter Member.isOwn).flatMap Member.types ++
    (r.statics.values.filter Member.isOwn).flatMap Member.types ++
    (r.construct.toList ++ r.destruct.toList).flatMap Member.types ++
    (r.properties.values.filter Property.isOwn).flatMap (·.check.toList) ++
    r.events.values.flatMap (·.typeText.toList)

def takenTypes (r : ClassRecord) : List (String × String) :=
  (r.members.values.flatMap fun a => a.source?.toList.flatMap fun s => a.types.map (s, ·)) ++
    r.properties.values.flatMap fun p => p.mixin.toList.flatMap fun s => p.check.toList.map (s, ·)

theorem mem_takenTypes {s ty : String} : (s, ty) ∈ r.takenTypes ↔
    (∃ n a, r.members.get? n = some a ∧ a.source? = some s ∧ ty ∈ a.types) ∨
      ∃ n p, r.properties.get? n = some p ∧ p.mixin = some s ∧ ty ∈ p.check.toList := by
  simp only [takenTypes, List.mem_append, List.mem_flatMap, Table.mem_values, Option.mem_toList,
    List.mem_map, Prod.mk.injEq]
  grind

theorem map_eq_self_iff {o : Option String} {f : String → String} :
    o.map f = o ↔ ∀ ty ∈ o.toList, f ty = ty := by
  cases o <;> simp

theorem fixed_iff {f : String → String} : r.Fixed f ↔ ∀ ty ∈ r.declaredTypes, f ty = ty := by
  have hmember : ∀ o : Option Member, o.map (mapMemberTypes f) = o ↔
      ∀ ty ∈ o.toList.flatMap Member.types, f ty = ty := by
    intro o
    cases o with
    | none => simp
    | some a => simpa using Member.mapMemberTypes_eq_self_iff
  have htable : ∀ t : Table Member, (∀ n a, (t.get? n).filter Member.isOwn = some a →
      mapMemberTypes f a = a) ↔
      ∀ ty ∈ (t.values.filter Member.isOwn).flatMap Member.types, f ty = ty := by
    intro t
    simp only [Option.filter_eq_some_iff, Member.mapMemberTypes_eq_self_iff, List.mem_flatMap,
      List.mem_filter, Table.mem_values]
    grind
  have hprops : (∀ n p, r.ownProperty? n = some p → p.check.map f = p.check) ↔
      ∀ ty ∈ (r.properties.values.filter Property.isOwn).flatMap (·.check.toList), f ty = ty := by
    simp only [ownProperty?, Option.filter_eq_some_iff, map_eq_self_iff, List.mem_flatMap,
      List.mem_filter, Table.mem_values]
    grind
  have hevents : (∀ n e, r.events.get? n = some e → e.typeText.map f = e.typeText) ↔
      ∀ ty ∈ r.events.values.flatMap (·.typeText.toList), f ty = ty := by
    simp only [map_eq_self_iff, List.mem_flatMap, Table.mem_values]
    grind
  rw [fixed_iff_fields, hprops, hevents, hmember, hmember]
  simp only [ownMember?, ownStatic?, htable, declaredTypes, List.mem_append, List.flatMap_append,
    or_imp, forall_and]
  tauto

structure Placed (g : Hierarchy) (r : ClassRecord) : Prop where
  members : ∀ n a, r.ownMember? n = some a → ∀ f,
    a.settled g f r.classname .member n = mapMemberTypes f a
  statics : ∀ n a, r.ownStatic? n = some a → ∀ f,
    a.settled g f r.classname .static n = mapMemberTypes f a
  properties : ∀ n p, r.ownProperty? n = some p → ∀ f,
    p.settled g f r.classname n = { p with check := p.check.map f }
  /-- Static members are never taken. -/
  statics_own : ∀ n, r.statics.get? n = r.ownStatic? n

theorem placed_reconcile (hg : g.Shows record?) (hr : record? r.classname = some r) :
    (r.reconcile g record?).Placed g where
  members n a ha f := by
    rw [ownMember?_reconcile hg hr] at ha
    obtain ⟨b, _, rfl⟩ := Option.map_eq_some_iff.1 ha
    rw [classname_reconcile]
    rfl
  statics n a ha f := by
    rw [ownStatic?_reconcile hg hr] at ha
    obtain ⟨b, _, rfl⟩ := Option.map_eq_some_iff.1 ha
    rw [classname_reconcile]
    rfl
  properties n p hp f := by
    rw [ownProperty?_reconcile hg hr] at hp
    obtain ⟨b, _, rfl⟩ := Option.map_eq_some_iff.1 hp
    rw [classname_reconcile]
    rfl
  statics_own n := by rw [get?_reconcile_statics hg hr, ownStatic?_reconcile hg hr]

theorem reconcile_eq_self (hm : (r.reconcile g record?).members = r.members)
    (hs : (r.reconcile g record?).statics = r.statics)
    (hp : (r.reconcile g record?).properties = r.properties)
    (hc : (r.reconcile g record?).construct = r.construct)
    (hd : (r.reconcile g record?).destruct = r.destruct)
    (he : (r.reconcile g record?).events = r.events) : r.reconcile g record? = r := by
  obtain ⟨members, properties, h⟩ := r.reconcile_eq g record?
  rw [h] at hm hs hp hc hd he ⊢
  dsimp only at hm hs hp hc hd he
  rw [hm, hs, hp, hc, hd, he]

theorem Placed.fixed (hplaced : r.Placed g) (hg : g.Shows record?)
    (hr : record? r.classname = some r) (h : r.reconcile g record? = r) :
    r.Fixed (r.completer record?) where
  members n a ha := by
    have hmap := ownMember?_reconcile hg hr n
    rw [h, ha, Option.map_some, Option.some.injEq, hplaced.members n a ha] at hmap
    exact hmap.symm
  statics n a ha := by
    have hmap := ownStatic?_reconcile hg hr n
    rw [h, ha, Option.map_some, Option.some.injEq, hplaced.statics n a ha] at hmap
    exact hmap.symm
  properties n p hp := by
    have hmap := ownProperty?_reconcile hg hr n
    rw [h, hp, Option.map_some, Option.some.injEq, hplaced.properties n p hp] at hmap
    exact (congrArg Property.check hmap).symm
  construct := by
    obtain ⟨members, properties, heq⟩ := r.reconcile_eq g record?
    exact (congrArg ClassRecord.construct heq).symm.trans (congrArg ClassRecord.construct h)
  destruct := by
    obtain ⟨members, properties, heq⟩ := r.reconcile_eq g record?
    exact (congrArg ClassRecord.destruct heq).symm.trans (congrArg ClassRecord.destruct h)
  events n e he := by
    obtain ⟨members, properties, heq⟩ := r.reconcile_eq g record?
    have hmap := congrArg (·.events.get? n) (heq.symm.trans h)
    simp only [Table.get?_map, he, Option.map_some, Option.some.injEq] at hmap
    exact congrArg EventInfo.typeText hmap

theorem Placed.reconcile_eq (hplaced : r.Placed g) (hg : g.Shows record?)
    (hr : record? r.classname = some r) (hfixed : r.Fixed (r.completer record?))
    (hm : ∀ n, r.ownMember? n = none → (r.reconcile g record?).members.get? n = r.members.get? n)
    (hp : ∀ n, r.ownProperty? n = none →
      (r.reconcile g record?).properties.get? n = r.properties.get? n) :
    r.reconcile g record? = r := by
  apply reconcile_eq_self
  · apply Table.ext_get?
    intro n
    rcases ho : r.ownMember? n with _ | a
    · exact hm n ho
    · rw [get?_reconcile_members hg hr, ho, Option.map_some, hplaced.members n a ho,
        hfixed.members n a ho, Option.some_or]
      exact (Option.filter_eq_some_iff.1 ho).1.symm
  · apply Table.ext_get?
    intro n
    rw [get?_reconcile_statics hg hr, hplaced.statics_own]
    rcases ho : r.ownStatic? n with _ | a
    · rfl
    · rw [Option.map_some, hplaced.statics n a ho, hfixed.statics n a ho]
  · apply Table.ext_get?
    intro n
    rcases ho : r.ownProperty? n with _ | p
    · exact hp n ho
    · rw [get?_reconcile_properties hg hr, ho, Option.map_some, hplaced.properties n p ho,
        hfixed.properties n p ho, Option.some_or]
      exact (Option.filter_eq_some_iff.1 ho).1.symm
  · obtain ⟨members, properties, heq⟩ := r.reconcile_eq g record?
    rw [heq]
    exact hfixed.construct
  · obtain ⟨members, properties, heq⟩ := r.reconcile_eq g record?
    rw [heq]
    exact hfixed.destruct
  · obtain ⟨members, properties, heq⟩ := r.reconcile_eq g record?
    rw [heq]
    apply Table.ext_get?
    intro n
    rw [Table.get?_map]
    rcases he : r.events.get? n with _ | e
    · rfl
    · rw [Option.map_some, hfixed.events n e he]

end ClassRecord

end ClassForge
